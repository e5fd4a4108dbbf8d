import TypeClues.Store.Basic

/-!
# Constraints without keys

A constraint that has no key is added without a change of bindings, and in place of those live
constraints only that equal it already. So types whose constraints have no keys unify exactly when
their terms do.
-/
namespace TypeClues.Store

theorem merge_of_keyless {p : Policy} {c : Term} (hc : p.key? c = none) (B : Bindings)
    (ds : List Term) :
    merge p c B ds = .ok (B, ds.filter fun d => B.substitute d ≠ B.substitute c) := by
  induction ds with
  | nil => rfl
  | cons d ds ih =>
    simp only [merge, hc, ih]
    by_cases hd : B.substitute d = B.substitute c
    · simp [hd]
    · simp only [hd, if_false, ne_eq, not_false_eq_true, decide_true, List.filter_cons_of_pos]
      rfl

theorem constrain_of_keyless {p : Policy} {c : Term} (hc : p.key? c = none) {s : Store}
    (hf : s.failed = false) :
    s.constrain p c = (.ok (), { s with
      constraints := (s.constraints.filter fun d =>
        s.bindings.substitute d ≠ s.bindings.substitute c) ++ [c] }) := by
  simp [constrain, guarded, hf, merge_of_keyless hc]

theorem constrainAll_of_keyless {p : Policy} (origin : Qualified) {cs : List Term}
    (hc : ∀ c ∈ cs, p.key? c = none) {s : Store} (hf : s.failed = false) :
    ∃ live, constrainAll p origin cs s = (.ok (), { s with constraints := live }) := by
  induction cs generalizing s with
  | nil => exact ⟨s.constraints, rfl⟩
  | cons c cs ih =>
    rw [constrainAll, constrain_of_keyless (hc c (by simp)) hf]
    exact ih (fun d hd => hc d (by simp [hd])) hf

/-- Types whose constraints have no keys unify as their terms do. -/
theorem unify_of_keyless {p : Policy} {a b : Qualified}
    (ha : ∀ c ∈ a.constraints.toList, p.key? c = none)
    (hb : ∀ c ∈ b.constraints.toList, p.key? c = none) {s : Store} (hf : s.failed = false) :
    ∃ live, s.unify p a b = Outcome.within (.unifyingTypes a b)
      (Store.unifyTerms { s with constraints := live } a.term b.term) := by
  obtain ⟨live, hl⟩ := constrainAll_of_keyless a ha hf
  obtain ⟨live', hl'⟩ := constrainAll_of_keyless (s := { s with constraints := live }) b hb hf
  refine ⟨live', ?_⟩
  rw [unify, guarded, hf, hl]
  simp only [Outcome.andThen, hl']
  rfl

end TypeClues.Store
