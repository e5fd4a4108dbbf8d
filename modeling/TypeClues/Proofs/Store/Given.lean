import Mathlib.Data.Set.Basic
import TypeClues.Policy.Finder
import TypeClues.Proofs.Store.Merging

/-!
# Live constraints stand for all that were given

A constraint goes out of a store only for one that equals it under the bindings, and equal terms
stay equal when bindings are added. So after any successful changes the live constraints are among
those that were given, each given one equals a live one, and in full both are the same set of terms.
-/
namespace TypeClues.Store

inductive Change where
  | terms (t u : Term)
  | constraint (c : Term)
  | types (a b : Qualified)

def Change.constraints : Change → List Term
  | .terms _ _ => []
  | .constraint c => [c]
  | .types a b => a.constraints.toList ++ b.constraints.toList

def apply (p : Policy) (s : Store) : Change → Outcome
  | .terms t u => s.unifyTerms t u
  | .constraint c => s.constrain p c
  | .types a b => s.unify p a b

def applyAll (p : Policy) : List Change → Store → Outcome
  | [], s => (.ok (), s)
  | x :: xs, s => (s.apply p x).andThen (applyAll p xs)

/-- The live constraints were given, and every given constraint equals a live one. -/
structure Represents (s : Store) (given : List Term) : Prop where
  acyclic : s.bindings.Acyclic
  given_of_live : ∀ d ∈ s.constraints, d ∈ given
  live_of_given : ∀ c ∈ given, ∃ d ∈ s.constraints,
    s.bindings.substitute c = s.bindings.substitute d

namespace Represents
variable {p : Policy} {s s' : Store} {given : List Term}

theorem empty : Represents {} [] := ⟨Bindings.acyclic_nil, by simp, by simp⟩

theorem unifyTerms (h : s.Represents given) {t u : Term} (hu : s.unifyTerms t u = (.ok (), s')) :
    s'.Represents given := by
  have hg := unifyTerms_grows h.acyclic t u
  have hc := constraints_unifyTerms s t u
  rw [hu] at hg hc
  refine ⟨hg.acyclic, ?_, ?_⟩
  · rw [hc]
    exact h.given_of_live
  · intro x hx
    obtain ⟨d, hd, he⟩ := h.live_of_given x hx
    rw [hc]
    exact ⟨d, hd, hg.keeps.substitute_eq h.acyclic hg.acyclic he⟩

theorem constrain (h : s.Represents given) {c : Term} (hc : s.constrain p c = (.ok (), s')) :
    s'.Represents (given ++ [c]) := by
  have hg := constrain_grows p h.acyclic c
  have hm := constrain_cases (p := p) h.acyclic c
  rw [hc] at hg hm
  rcases hm with ⟨kept, hk, hm⟩ | ⟨hn, -⟩
  · have hk' : s'.constraints = kept ++ [c] := hk
    refine ⟨hg.acyclic, ?_, ?_⟩
    · intro d hd
      rw [hk', List.mem_append] at hd
      rw [List.mem_append]
      exact hd.imp_left fun hd => h.given_of_live d (hm.sublist.subset hd)
    · intro x hx
      rw [hk']
      rcases List.mem_append.1 hx with hx | hx
      · obtain ⟨d, hd, he⟩ := h.live_of_given x hx
        have he' := hg.keeps.substitute_eq h.acyclic hg.acyclic he
        -- what `x` was equal to is still there, or has fallen together with `c`
        rcases hm.subsumed d hd with hd | hd
        · exact ⟨d, by simp [hd], he'⟩
        · exact ⟨c, by simp, he'.trans hd⟩
      · exact ⟨x, by simp [List.mem_singleton.1 hx], rfl⟩
  · exact absurd rfl hn

theorem constrainAll (h : s.Represents given) {origin : Qualified} {cs : List Term}
    (hc : Store.constrainAll p origin cs s = (.ok (), s')) : s'.Represents (given ++ cs) := by
  induction cs generalizing s given with
  | nil =>
    cases hc
    simpa using h
  | cons c cs ih =>
    obtain ⟨s₁, h₁, hc⟩ := constrainAll_cons_eq_ok.1 hc
    simpa using ih (h.constrain h₁) hc

theorem apply (h : s.Represents given) {x : Change} (hx : s.apply p x = (.ok (), s')) :
    s'.Represents (given ++ x.constraints) := by
  cases x with
  | terms t u => simpa [Change.constraints] using h.unifyTerms hx
  | constraint c => exact h.constrain hx
  | types a b =>
    obtain ⟨s₁, s₂, h₁, h₂, hu⟩ := unify_eq_ok hx
    simpa [Change.constraints] using ((h.constrainAll h₁).constrainAll h₂).unifyTerms hu

theorem applyAll (h : s.Represents given) {xs : List Change}
    (hx : Store.applyAll p xs s = (.ok (), s')) :
    s'.Represents (given ++ xs.flatMap Change.constraints) := by
  induction xs generalizing s given with
  | nil =>
    cases hx
    simpa using h
  | cons x xs ih =>
    obtain ⟨s₁, h₁, hx⟩ := Outcome.andThen_eq_ok.1 hx
    simpa using ih (h.apply h₁) hx

end Represents

/-- After successful changes the live constraints and all constraints ever given are, in full, the
same set of terms. -/
theorem live_eq_given {p : Policy} {xs : List Change} {s : Store}
    (h : applyAll p xs {} = (.ok (), s)) :
    {t | ∃ d ∈ s.constraints, s.bindings.substitute d = t} =
      {t | ∃ c ∈ xs.flatMap Change.constraints, s.bindings.substitute c = t} := by
  have hr : s.Represents (xs.flatMap Change.constraints) := by
    simpa using Represents.empty.applyAll h
  ext t
  constructor
  · rintro ⟨d, hd, rfl⟩
    exact ⟨d, hr.given_of_live d hd, rfl⟩
  · rintro ⟨c, hc, rfl⟩
    obtain ⟨d, hd, he⟩ := hr.live_of_given c hc
    exact ⟨d, hd, he.symm⟩

/-- One constraint is replaced by an equal one and another falls together with one of the same key,
which also binds `r`. Two are live in the end, and `Show a` is still one of them in full. -/
theorem live_eq_given_two_of_four :
    let p := Policy.ofFinders [.head "RepresentedAs" 2 1]
    let shows := Term.app (.atom "Show")
    let repr := fun t u : Term => Term.app (.app (.atom "RepresentedAs") t) u
    let xs := [.constraint (shows (.var "a")), .constraint (repr (.atom "Int") (.atom "Bit64")),
      .terms (.var "a") (.atom "Int"),
      .types (.of [shows (.atom "Int")] (.var "b"))
        (.of [repr (.atom "Int") (.var "r")] (.app (.atom "List") (.var "r")))]
    let s := (applyAll p xs {}).2
    applyAll p xs {} = (.ok (), s) ∧
      s.constraints = [shows (.atom "Int"), repr (.atom "Int") (.var "r")] ∧
      {t | ∃ d ∈ s.constraints, s.bindings.substitute d = t} =
        {t | ∃ c ∈ xs.flatMap Change.constraints, s.bindings.substitute c = t} := by
  intro p shows repr xs s
  have hx : applyAll p xs {} = (.ok (), s) := Prod.ext (by decide) rfl
  exact ⟨hx, by decide, live_eq_given hx⟩

end TypeClues.Store
