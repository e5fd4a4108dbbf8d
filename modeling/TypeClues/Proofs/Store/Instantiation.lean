import TypeClues.Proofs.Store.Answers
import TypeClues.Proofs.Bindings.Following

/-!
# Terms in full

In a term in full no bound variable is left, so putting it in full again changes nothing, and the
same holds of a type with the constraints that concern it. The free variables in it are those that a
search behind the bindings finds. So a free variable can be made equal to a term unless it is found
in it, the variable itself apart.
-/
namespace TypeClues

namespace Bindings
variable {B : Bindings} {t : Term} {v : String}

theorem get?_of_mem_vars_substitute (hB : B.Acyclic) (h : v ∈ (B.substitute t).vars) :
    B.get? v = none := by
  induction t using hB.induct with
  | atom a =>
    rw [substitute_atom hB] at h
    cases h
  | app f x hf hx =>
    rw [substitute_app hB, Term.vars_app] at h
    rcases List.mem_append.1 h with h | h
    · exact hf h
    · exact hx h
  | free w hw =>
    rw [substitute_of_free hB hw] at h
    rw [List.mem_singleton.1 h, hw]
  | bound w u hu ih =>
    rw [substitute_of_bound hB hu] at h
    exact ih h

theorem substitute_substitute (hB : B.Acyclic) (t : Term) :
    B.substitute (B.substitute t) = B.substitute t := by
  rw [← subst_solution hB]
  refine (Term.subst_congr ?_).trans (Term.subst_id _)
  intro v hv
  exact solution_of_free hB (get?_of_mem_vars_substitute hB hv)

theorem mem_vars_substitute_iff (hB : B.Acyclic) (hv : B.get? v = none) :
    v ∈ (B.substitute t).vars ↔ ∃ w ∈ t.vars, B.Reaches w v := by
  induction t using hB.induct with
  | atom a => simp [substitute_atom hB]
  | app f x hf hx => simp [substitute_app hB, hf, hx, or_and_right, exists_or]
  | free w hw =>
    have hr : B.Reaches w v ↔ v = w := by
      rw [reaches_iff_of_get?, hw]
      simp [eq_comm]
    simp [substitute_of_free hB hw, hr]
  | bound w u hu ih =>
    have hne : w ≠ v := by
      rintro rfl
      rw [hu] at hv
      cases hv
    have hr : B.Reaches w v ↔ ∃ x ∈ u.vars, B.Reaches x v := by
      rw [reaches_iff_of_get?, hu]
      simp [hne]
    simp [substitute_of_bound hB hu, ih, hr]

theorem occurs_iff_mem_vars_substitute (hB : B.Acyclic) (hv : B.get? v = none) :
    B.occurs v t = true ↔ v ∈ (B.substitute t).vars := by
  rw [occurs_iff hB, mem_vars_substitute_iff hB hv]

theorem substitute_head (hB : B.Acyclic) (t : Term) : B.substitute (B.head t) = B.substitute t := by
  rw [← subst_solution hB, (solves_solution hB).subst_head, subst_solution hB]

theorem substitute_eq_var_iff (hB : B.Acyclic) (hv : B.get? v = none) :
    B.substitute t = .var v ↔ B.head t = .var v := by
  constructor
  · intro h
    rw [← substitute_head hB, ← subst_solution hB] at h
    obtain ⟨w, hw, hs⟩ := Term.exists_var_of_subst h
    rw [solution_of_free hB (get?_head hB hw)] at hs
    rw [hw, hs]
  · intro h
    rw [← substitute_head hB, h, substitute_of_free hB hv]

theorem assign_eq_error_iff (hB : B.Acyclic) (hv : B.get? v = none) :
    (∃ c, B.assign v t = .error c) ↔
      v ∈ (B.substitute t).vars ∧ B.substitute t ≠ .var v := by
  have hfound : v ∈ (B.substitute t).vars ↔ (B.occurrence? v (B.head t)).isSome := by
    rw [← substitute_head hB, ← occurs_iff_mem_vars_substitute hB hv, occurs, occurrence?,
      isSome_occurrenceWithin?]
  rw [ne_eq, substitute_eq_var_iff hB hv, hfound, assign]
  by_cases hh : B.head t = .var v
  · simp [hh]
  · simp only [hh, if_false]
    cases B.occurrence? v (B.head t) with
    | none => simp
    | some story => simp

theorem unify_of_free (hv : B.get? v = none) (t : Term) : B.unify (.var v) t = B.assign v t := by
  rw [unify, depth, unifyWithin, unifyVar, hv]
  rfl

end Bindings

namespace Store
variable {p : Policy} {s : Store} {q r : Qualified} {t : Term} {v : String}

theorem unifyTerms_eq_error_iff (hs : s.bindings.Acyclic) (hf : s.failed = false)
    (hv : s.bindings.get? v = none) :
    (∃ x, (s.unifyTerms (.var v) t).1 = .error x) ↔
      v ∈ (s.bindings.substitute t).vars ∧ s.bindings.substitute t ≠ .var v := by
  rw [← Bindings.assign_eq_error_iff hs hv, ← Bindings.unify_of_free hv, unifyTerms, guarded, hf]
  cases s.bindings.unify (.var v) t with
  | ok B => simp
  | error c => simp

/-- What a store has answered about a type it answers about the answer. -/
theorem instantiate_of_instantiate (hs : s.bindings.Acyclic) (hf : s.failed = false)
    (h : s.instantiate q = .ok r) : s.instantiate r = .ok r := by
  obtain ⟨r', h'⟩ := exists_instantiate hf r
  have hterm : r'.term = r.term := by
    rw [term_of_instantiate h', term_of_instantiate h, Bindings.substitute_substitute hs]
  -- the constraints of an answer are in full
  have hfull : ∀ c ∈ r.constraints, s.bindings.substitute c = c := by
    intro c hc
    obtain ⟨⟨d, -, rfl⟩, -⟩ := (mem_constraints_of_instantiate h).1 hc
    exact Bindings.substitute_substitute hs d
  rw [h']
  congr 1
  ext c
  · rw [mem_constraints_of_instantiate h', hterm]
    constructor
    · rintro ⟨⟨d, hd | hd, rfl⟩, hshared⟩
      · exact (mem_constraints_of_instantiate h).2 ⟨⟨d, .inl hd, rfl⟩, hshared⟩
      · rwa [hfull d hd]
    · intro hc
      exact ⟨⟨c, .inr hc, hfull c hc⟩, ((mem_constraints_of_instantiate h).1 hc).2⟩
  · exact hterm

/-- Terms and types in full stay as they are. Whether a free variable occurs in a term is whether it
stands in the term in full, in failed stores too, and this alone, the bare variable apart, keeps the
two from being unified. -/
theorem instantiation_settled (hs : s.Reachable p) :
    (s.failed = false →
      (∀ t, ∃ u, s.bindings.SubstitutesTo t u ∧ s.substitute t = .ok u ∧
        (∀ v ∈ u.vars, s.bindings.get? v = none) ∧ s.substitute u = .ok u) ∧
      ∀ q, ∃ r, s.instantiate q = .ok r ∧ s.instantiate r = .ok r) ∧
    ∀ v t, s.bindings.get? v = none →
      (s.occurs v t = true ↔ v ∈ (s.bindings.substitute t).vars) ∧
      (s.failed = false →
        ((∃ x, (s.unifyTerms (.var v) t).1 = .error x) ↔
          v ∈ (s.bindings.substitute t).vars ∧ s.bindings.substitute t ≠ .var v)) := by
  have hB := hs.acyclic
  refine ⟨fun hf => ⟨?_, ?_⟩, fun v t hv => ⟨?_, fun hf => ?_⟩⟩
  · intro t
    refine ⟨s.bindings.substitute t, (Bindings.substitutesTo_iff hB).2 rfl, ?_, ?_, ?_⟩
    · exact answer_eq_ok_iff.2 ⟨hf, rfl⟩
    · exact fun v => Bindings.get?_of_mem_vars_substitute hB
    · exact answer_eq_ok_iff.2 ⟨hf, Bindings.substitute_substitute hB t⟩
  · intro q
    obtain ⟨r, hr⟩ := exists_instantiate hf q
    exact ⟨r, hr, instantiate_of_instantiate hB hf hr⟩
  · exact Bindings.occurs_iff_mem_vars_substitute hB hv
  · exact unifyTerms_eq_error_iff hB hf hv

/-- With `a` bound to a list of `b`, a type about `a` is answered with a live constraint and its
own. Unifying `b` with `a` fails, and the failed store still finds `b` behind `a`. -/
theorem instantiation_settled_behind_binding :
    let list := Term.app (.atom "List")
    let conv := fun t u : Term => Term.app (.app (.atom "Conv") t) u
    let s := ((({} : Store).unifyTerms (.var "a") (list (.var "b"))).2.constrain {}
      (.app (.atom "Show") (.var "a"))).2
    let s' := (s.unifyTerms (.var "b") (.var "a")).2
    s.Reachable {} ∧ s.failed = false ∧
      (∃ r, s.instantiate (.of [conv (.var "a") (.var "c")] (.var "a")) = .ok r ∧
        r = .of [conv (list (.var "b")) (.var "c"), .app (.atom "Show") (list (.var "b"))]
          (list (.var "b")) ∧ s.instantiate r = .ok r) ∧
      s.bindings.get? "b" = none ∧ (∃ x, (s.unifyTerms (.var "b") (.var "a")).1 = .error x) ∧
      s'.Reachable {} ∧ s'.failed = true ∧ s'.occurs "b" (list (.var "a")) = true := by
  intro list conv s s'
  have hs : s.Reachable {} := .constrain (.unifyTerms .empty _ _) _
  have hs' : s'.Reachable {} := .unifyTerms hs _ _
  have hf : s.failed = false := by decide
  have hb : s.bindings.get? "b" = none := by decide
  obtain ⟨hfull, hfree⟩ := instantiation_settled hs
  obtain ⟨r, hr, hagain⟩ := (hfull hf).2 (.of [conv (.var "a") (.var "c")] (.var "a"))
  refine ⟨hs, hf, ⟨r, hr, ?_, hagain⟩, hb, ?_, hs', by decide, ?_⟩
  · exact Except.ok.inj (hr.symm.trans (by decide))
  · exact ((hfree "b" (.var "a") hb).2 hf).2 (by decide)
  · exact ((instantiation_settled hs').2 "b" (list (.var "a")) (by decide)).1.2 (by decide)

end Store
end TypeClues
