import TypeClues.Proofs.Store.Given
import TypeClues.Proofs.Store.Rearrangement

/-!
# Answers of a store about unified types

A store answers about a type with its term in full and with all constraints that concern the term:
the live ones and those of the type itself. Once a type has been unified with another one its own
constraints are live too, or equal to a live one, so the answer depends on the term alone. Types
that have been unified have the same term in full, then and after all later changes. So they get the
same answer.
-/
namespace TypeClues.Store
variable {p : Policy} {s s' : Store} {xs ys : List Change} {a b q r : Qualified} {c : Term}

theorem applyAll_append (xs ys : List Change) (s : Store) :
    applyAll p (xs ++ ys) s = (applyAll p xs s).andThen (applyAll p ys) := by
  induction xs generalizing s with
  | nil => rfl
  | cons x xs ih =>
    rw [List.cons_append, applyAll, applyAll]
    obtain ⟨_ | _, s₁⟩ := s.apply p x
    · rfl
    · exact ih s₁

theorem Grows.trans {s₁ s₂ s₃ : Store} (h : s₁.Grows s₂) (h' : s₂.Grows s₃) : s₁.Grows s₃ :=
  ⟨h'.acyclic, h.keeps.trans h'.keeps⟩

theorem constrainAll_grows (hs : s.bindings.Acyclic) (o : Qualified) (cs : List Term) :
    s.Grows (constrainAll p o cs s).2 := by
  apply constrainAll_keeps (I := s.Grows) _ _ o cs (.refl hs)
  · exact fun _ _ h => ⟨h.acyclic, h.keeps⟩
  · exact fun _ c h => h.trans (constrain_grows p h.acyclic c)

theorem apply_grows (hs : s.bindings.Acyclic) (x : Change) : s.Grows (s.apply p x).2 := by
  cases x with
  | terms t u => exact unifyTerms_grows hs t u
  | constraint c => exact constrain_grows p hs c
  | types a b =>
    apply unify_keeps (I := s.Grows) _ _ _ (.refl hs)
    · exact fun _ _ h => ⟨h.acyclic, h.keeps⟩
    · exact fun _ t u h => h.trans (unifyTerms_grows h.acyclic t u)
    · exact fun _ c h => h.trans (constrain_grows p h.acyclic c)

theorem applyAll_grows (hs : s.bindings.Acyclic) (xs : List Change) :
    s.Grows (applyAll p xs s).2 := by
  induction xs generalizing s with
  | nil => exact .refl hs
  | cons x xs ih =>
    apply andThen_keeps (I := s.Grows) (apply_grows hs x)
    exact fun _ h => h.trans (ih h.acyclic)

theorem substitute_eq_of_unifyTerms (hs : s.bindings.Acyclic) {t u : Term}
    (h : s.unifyTerms t u = (.ok (), s')) : s'.bindings.substitute t = s'.bindings.substitute u := by
  rcases unifyTerms_cases hs (guarded_eq_ok.1 h).1 t u with ⟨s₁, h₁, hl⟩ | ⟨hne, -⟩
  · obtain rfl : s' = s₁ := congrArg Prod.snd (h.symm.trans h₁)
    rw [Bindings.substitute_eq_substitute_iff hl.acyclic]
    exact fun θ hθ => equates_singleton.1 ((hl.solves θ).1 hθ).2
  · rw [h] at hne
    exact absurd rfl hne

theorem substitute_eq_of_unify (hs : s.bindings.Acyclic) (h : s.unify p a b = (.ok (), s')) :
    s'.bindings.substitute a.term = s'.bindings.substitute b.term := by
  obtain ⟨s₁, s₂, h₁, h₂, hu⟩ := unify_eq_ok h
  have hg₁ := constrainAll_grows (p := p) hs a a.constraints.toList
  rw [h₁] at hg₁
  have hg₂ := constrainAll_grows (p := p) hg₁.acyclic b b.constraints.toList
  rw [h₂] at hg₂
  exact substitute_eq_of_unifyTerms hg₂.acyclic hu

theorem substitute_eq_of_applyAll (hs : s.bindings.Acyclic) (h : applyAll p xs s = (.ok (), s'))
    (hm : .types a b ∈ xs) : s'.bindings.substitute a.term = s'.bindings.substitute b.term := by
  induction xs generalizing s with
  | nil => cases hm
  | cons x xs ih =>
    obtain ⟨s₁, h₁, hxs⟩ := Outcome.andThen_eq_ok.1 h
    have hg₁ := apply_grows (p := p) hs x
    rw [h₁] at hg₁
    rcases List.mem_cons.1 hm with rfl | hm
    · have hg := applyAll_grows (p := p) hg₁.acyclic xs
      rw [hxs] at hg
      exact hg.keeps.substitute_eq hg₁.acyclic hg.acyclic (substitute_eq_of_unify hs h₁)
    · exact ih hg₁.acyclic hxs hm

theorem mem_constraints_of_instantiate (h : s.instantiate q = .ok r) :
    c ∈ r.constraints ↔
      (∃ d, (d ∈ s.constraints ∨ d ∈ q.constraints) ∧ s.bindings.substitute d = c) ∧
        ∃ v ∈ c.vars, v ∈ r.term.vars := by
  obtain ⟨-, rfl⟩ := answer_eq_ok_iff.1 h
  rw [qualified, Qualified.mem_constraints_of, List.mem_filter, List.mem_map, List.any_eq_true]
  simp only [List.mem_append, OrderedSet.mem_def, decide_eq_true_eq, Qualified.term_of]

/-- The answer about a type under other names puts in what these stand for. The constraints of the
type are there as far as they concern the term. -/
theorem instantiate_rename (hs : s.bindings.Acyclic) {f : String → String}
    (h : s.instantiate (q.rename f) = .ok r) :
    (r.term = q.term.subst fun v => s.bindings.solution (f v)) ∧
      ∀ d ∈ q.constraints, (d.subst fun v => s.bindings.solution (f v)) ∈ r.constraints ↔
        ∃ v ∈ (d.subst fun v => s.bindings.solution (f v)).vars, v ∈ r.term.vars := by
  have hsub (t : Term) :
      (t.subst fun v => s.bindings.solution (f v)) = s.bindings.substitute (t.rename f) := by
    rw [← Bindings.subst_solution hs, Term.subst_rename]
  constructor
  · rw [term_of_instantiate h, hsub]
    rfl
  · intro d hd
    rw [mem_constraints_of_instantiate h, hsub]
    apply and_iff_right
    exact ⟨d.rename f, .inr (Qualified.mem_constraints_rename.2 ⟨d, hd, rfl⟩), rfl⟩

/-- Constraints that have been given are live or equal to live ones. -/
theorem Represents.mem_constraints_of_instantiate {given : List Term} (hs : s.Represents given)
    (hq : ∀ d ∈ q.constraints, d ∈ given) (h : s.instantiate q = .ok r) :
    c ∈ r.constraints ↔ (∃ d ∈ s.constraints, s.bindings.substitute d = c) ∧
      ∃ v ∈ c.vars, v ∈ r.term.vars := by
  rw [Store.mem_constraints_of_instantiate h]
  apply and_congr_left
  intro _
  constructor
  · rintro ⟨d, hd | hd, rfl⟩
    · exact ⟨d, hd, rfl⟩
    · obtain ⟨e, he, heq⟩ := hs.live_of_given d (hq d hd)
      exact ⟨e, he, heq.symm⟩
  · rintro ⟨d, hd, rfl⟩
    exact ⟨d, .inl hd, rfl⟩

/-- The store gives the same answer about types that have been unified. -/
theorem instantiate_eq_of_applyAll (h : applyAll p xs {} = (.ok (), s)) (hm : .types a b ∈ xs)
    (hf : s.failed = false) : s.instantiate a = s.instantiate b := by
  have hs : s.Represents (xs.flatMap Change.constraints) := by
    simpa using Represents.empty.applyAll h
  have hgiven : ∀ d, d ∈ a.constraints ∨ d ∈ b.constraints → d ∈ xs.flatMap Change.constraints := by
    intro d hd
    apply List.mem_flatMap.2
    exact ⟨_, hm, List.mem_append.2 hd⟩
  have ht := substitute_eq_of_applyAll Bindings.acyclic_nil h hm
  obtain ⟨x, hx⟩ := exists_instantiate hf a
  obtain ⟨y, hy⟩ := exists_instantiate hf b
  rw [hx, hy]
  congr 1
  have hxy : x.term = y.term := by rw [term_of_instantiate hx, term_of_instantiate hy, ht]
  ext c
  · rw [hs.mem_constraints_of_instantiate (fun d hd => hgiven d (.inl hd)) hx,
      hs.mem_constraints_of_instantiate (fun d hd => hgiven d (.inr hd)) hy, hxy]
  · exact hxy

end TypeClues.Store
