import TypeClues.Proofs.Bindings.Unification
import TypeClues.Store.Basic

/-!
# Reachable stores

The stores that any sequence of changes leads to from an empty one, failed changes included. Their
bindings are acyclic, and every change keeps the bindings that were there. So unification on a store
that has not failed is most general: it leaves exactly the solutions that make the two terms equal,
and refuses only when there are none.
-/
namespace TypeClues.Store

/-- The stores that changes under a policy lead to. -/
inductive Reachable (p : Policy) : Store → Prop
  | empty : Reachable p {}
  | unifyTerms {s : Store} (hs : Reachable p s) (t u : Term) : Reachable p (s.unifyTerms t u).2
  | constrain {s : Store} (hs : Reachable p s) (c : Term) : Reachable p (s.constrain p c).2
  | unify {s : Store} (hs : Reachable p s) (a b : Qualified) : Reachable p (s.unify p a b).2

/-- The second store is acyclic and has all bindings of the first. -/
structure Grows (s s' : Store) : Prop where
  acyclic : s'.bindings.Acyclic
  keeps : s.bindings.Extends s'.bindings

theorem Grows.refl {s : Store} (h : s.bindings.Acyclic) : s.Grows s := ⟨h, .refl _⟩

section Keeps
variable {p : Policy} {I : Store → Prop}

/-! Unifying types is made of adding single constraints and unifying terms, with a longer story
where that fails. So a property that these keep holds of every reachable store. -/

theorem guarded_keeps {s : Store} (hs : I s) {change : Outcome} (h : I change.2) :
    I (s.guarded change).2 := by
  rw [guarded]
  split
  · exact hs
  · exact h

theorem within_keeps (hstory : ∀ s story, I s → I { s with story := story }) {r : Outcome}
    (h : I r.2) (step : Step) : I (r.within step).2 := by
  obtain ⟨(_ | _) | _, s⟩ := r
  · exact hstory s _ h
  · exact h
  · exact h

theorem andThen_keeps {r : Outcome} {next : Store → Outcome} (h : I r.2)
    (hn : ∀ s, I s → I (next s).2) : I (r.andThen next).2 := by
  obtain ⟨_ | _, s⟩ := r
  · exact h
  · exact hn s h

theorem constrainAll_keeps (hstory : ∀ s story, I s → I { s with story := story })
    (hconstrain : ∀ s c, I s → I (s.constrain p c).2) (origin : Qualified) (cs : List Term)
    {s : Store} (hs : I s) : I (constrainAll p origin cs s).2 := by
  induction cs generalizing s with
  | nil => exact hs
  | cons c cs ih =>
    apply andThen_keeps
    · exact within_keeps hstory (hconstrain s c hs) _
    · exact fun s hs => ih hs

theorem unify_keeps (hstory : ∀ s story, I s → I { s with story := story })
    (hterms : ∀ s t u, I s → I (s.unifyTerms t u).2)
    (hconstrain : ∀ s c, I s → I (s.constrain p c).2) {s : Store} (hs : I s) (a b : Qualified) :
    I (s.unify p a b).2 := by
  apply guarded_keeps hs
  apply andThen_keeps
  · apply andThen_keeps
    · exact constrainAll_keeps hstory hconstrain a _ hs
    · exact fun s hs => constrainAll_keeps hstory hconstrain b _ hs
  · exact fun s hs => within_keeps hstory (hterms s _ _ hs) _

theorem Reachable.keeps (hempty : I {}) (hstory : ∀ s story, I s → I { s with story := story })
    (hterms : ∀ s t u, I s → I (s.unifyTerms t u).2)
    (hconstrain : ∀ s c, I s → I (s.constrain p c).2) {s : Store} (hs : s.Reachable p) : I s := by
  induction hs with
  | empty => exact hempty
  | unifyTerms _ t u ih => exact hterms _ t u ih
  | constrain _ c ih => exact hconstrain _ c ih
  | unify _ a b ih => exact unify_keeps hstory hterms hconstrain ih a b

end Keeps

theorem unifyTerms_grows {s : Store} (hs : s.bindings.Acyclic) (t u : Term) :
    s.Grows (s.unifyTerms t u).2 := by
  apply guarded_keeps (.refl hs)
  have hc := Bindings.unify_correct hs t u
  cases h : s.bindings.unify t u with
  | ok B =>
    rw [h] at hc
    exact ⟨hc.1.acyclic, hc.1.keeps⟩
  | error c =>
    rw [h] at hc
    exact ⟨hc.1.acyclic, hc.1.keeps⟩

/-- The bindings that merging ends with, or had reached when it failed. -/
def reached : Except Clash (Bindings × List Term) → Bindings
  | .ok r => r.1
  | .error clash => clash.reached

theorem reached_map_keep (r : Except Clash (Bindings × List Term)) (d : Term) :
    reached (r.map fun r => (r.1, d :: r.2)) = reached r := by cases r <;> rfl

theorem merge_grows (p : Policy) (c : Term) {B : Bindings} (hB : B.Acyclic) (ds : List Term) :
    (reached (merge p c B ds)).Acyclic ∧ B.Extends (reached (merge p c B ds)) := by
  induction ds generalizing B with
  | nil => exact ⟨hB, .refl B⟩
  | cons d ds ih =>
    rw [merge]
    split
    · next k l _ _ =>
      have hk := Bindings.unify_correct hB k l
      split
      · rw [reached_map_keep]
        exact ih hB
      · next B₁ h₁ =>
        rw [h₁] at hk
        have hc := Bindings.unify_correct hk.1.acyclic c d
        split
        · next B₂ h₂ =>
          rw [h₂] at hc
          have hi := ih hc.1.acyclic
          exact ⟨hi.1, (hk.1.keeps.trans hc.1.keeps).trans hi.2⟩
        · next clash h₂ =>
          rw [h₂] at hc
          exact ⟨hc.1.acyclic, hk.1.keeps.trans hc.1.keeps⟩
    · split
      · exact ih hB
      · rw [reached_map_keep]
        exact ih hB

theorem constrain_grows (p : Policy) {s : Store} (hs : s.bindings.Acyclic) (c : Term) :
    s.Grows (s.constrain p c).2 := by
  apply guarded_keeps (.refl hs)
  have hm := merge_grows p c hs s.constraints
  split
  · next h =>
    rw [h] at hm
    exact ⟨hm.1, hm.2⟩
  · next h =>
    rw [h] at hm
    exact ⟨hm.1, hm.2⟩

/-- No variable of a reachable store depends on itself, failed stores included. -/
theorem Reachable.acyclic {p : Policy} {s : Store} (h : s.Reachable p) : s.bindings.Acyclic := by
  apply h.keeps (I := fun s => s.bindings.Acyclic) Bindings.acyclic_nil
  · exact fun _ _ h => h
  · exact fun _ t u h => (unifyTerms_grows h t u).acyclic
  · exact fun _ c h => (constrain_grows p h c).acyclic

/-! ## Changes that succeed -/

section Success
variable {s s' : Store} {r : Outcome}

theorem Outcome.andThen_eq_ok {next : Store → Outcome} :
    r.andThen next = (.ok (), s') ↔ ∃ s, r = (.ok (), s) ∧ next s = (.ok (), s') := by
  obtain ⟨x | _, s⟩ := r
  · simp [andThen]
  · simp [andThen]

theorem Outcome.within_eq_ok {step : Step} : r.within step = (.ok (), s') ↔ r = (.ok (), s') := by
  obtain ⟨(_ | _) | _, s⟩ := r
  · simp [within]
  · simp [within]
  · simp [within]

theorem guarded_eq_ok {change : Outcome} :
    s.guarded change = (.ok (), s') ↔ s.failed = false ∧ change = (.ok (), s') := by
  rw [guarded]
  cases hf : s.failed with
  | true => simp
  | false => simp

theorem constrainAll_cons_eq_ok {p : Policy} {origin : Qualified} {c : Term} {cs : List Term} :
    constrainAll p origin (c :: cs) s = (.ok (), s') ↔
      ∃ s₁, s.constrain p c = (.ok (), s₁) ∧ constrainAll p origin cs s₁ = (.ok (), s') := by
  rw [constrainAll, Outcome.andThen_eq_ok]
  simp only [Outcome.within_eq_ok]

theorem unify_eq_ok {p : Policy} {a b : Qualified} (h : s.unify p a b = (.ok (), s')) :
    ∃ s₁ s₂, constrainAll p a a.constraints.toList s = (.ok (), s₁) ∧
      constrainAll p b b.constraints.toList s₁ = (.ok (), s₂) ∧
      s₂.unifyTerms a.term b.term = (.ok (), s') := by
  rw [unify, guarded_eq_ok, Outcome.andThen_eq_ok] at h
  obtain ⟨-, s₂, h₂, hu⟩ := h
  obtain ⟨s₁, h₁, h₂⟩ := Outcome.andThen_eq_ok.1 h₂
  exact ⟨s₁, s₂, h₁, h₂, Outcome.within_eq_ok.1 hu⟩

end Success

theorem failed_of_unifyTerms_ok {s s' : Store} {t u : Term}
    (h : s.unifyTerms t u = (.ok (), s')) : s'.failed = false := by
  obtain ⟨hf, h⟩ := guarded_eq_ok.1 h
  cases hB : s.bindings.unify t u with
  | ok B =>
    rw [hB] at h
    cases h
    exact hf
  | error c =>
    rw [hB] at h
    cases h

/-- Types are unified in the end by unifying terms, so a store that has failed before does not get
that far. -/
theorem failed_of_unify_ok {p : Policy} {s : Store} {a b : Qualified}
    (h : (s.unify p a b).1 = .ok ()) : (s.unify p a b).2.failed = false := by
  obtain ⟨s₁, s₂, -, -, hu⟩ := unify_eq_ok (Prod.ext h rfl)
  exact failed_of_unifyTerms_ok hu

theorem answer_eq_ok_iff {α : Type} {s : Store} {a b : α} :
    s.answer a = .ok b ↔ s.failed = false ∧ a = b := by
  rw [answer]
  cases hf : s.failed with
  | true => simp
  | false => simp

theorem exists_instantiate {s : Store} (hf : s.failed = false) (q : Qualified) :
    ∃ r, s.instantiate q = .ok r := ⟨_, answer_eq_ok_iff.2 ⟨hf, rfl⟩⟩

theorem term_of_instantiate {s : Store} {q r : Qualified} (h : s.instantiate q = .ok r) :
    r.term = s.bindings.substitute q.term := by
  obtain ⟨-, rfl⟩ := answer_eq_ok_iff.1 h
  rfl

/-- Unification of terms is most general relative to the bindings of the store. -/
theorem unifyTerms_mostGeneral {p : Policy} {s : Store} (hs : s.Reachable p)
    (hf : s.failed = false) (t u : Term) :
    (∀ s', s.unifyTerms t u = (.ok (), s') →
      (∀ θ, Bindings.Solves θ s'.bindings ↔
        Bindings.Solves θ s.bindings ∧ t.subst θ = u.subst θ) ∧
      s'.bindings.substitute t = s'.bindings.substitute u) ∧
    (∀ x s', s.unifyTerms t u = (.error x, s') →
      ∀ θ, Bindings.Solves θ s.bindings → t.subst θ ≠ u.subst θ) := by
  have hc := Bindings.unify_correct hs.acyclic t u
  rw [unifyTerms, guarded, hf]
  cases h : s.bindings.unify t u with
  | ok B =>
    rw [h] at hc
    refine ⟨fun s' hs' => ?_, fun x s' hs' => ?_⟩
    · cases hs'
      refine ⟨hc.2, (Bindings.substitute_eq_substitute_iff hc.1.acyclic).2 fun θ hθ => ?_⟩
      exact ((hc.2 θ).1 hθ).2
    · cases hs'
  | error c =>
    rw [h] at hc
    refine ⟨fun s' hs' => ?_, fun x s' hs' => ?_⟩
    · cases hs'
    · exact hc.2

/-- With `a` bound to a list of `b`, nothing makes `b` equal to `a`. -/
theorem unifyTerms_mostGeneral_behind_binding :
    let s := (({} : Store).unifyTerms (.var "a") (.app (.atom "List") (.var "b"))).2
    s.Reachable {} ∧ s.failed = false ∧ (s.unifyTerms (.var "b") (.var "a")).1 = .error .mismatch ∧
      ∀ θ, Bindings.Solves θ s.bindings → θ "b" ≠ θ "a" := by
  have hs : (({} : Store).unifyTerms (.var "a") (.app (.atom "List") (.var "b"))).2.Reachable {} :=
    .unifyTerms .empty _ _
  exact ⟨hs, by decide, by decide,
    (unifyTerms_mostGeneral hs (by decide) (.var "b") (.var "a")).2 .mismatch _ rfl⟩

end TypeClues.Store
