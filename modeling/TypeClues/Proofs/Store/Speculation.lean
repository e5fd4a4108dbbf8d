import Mathlib.Data.Set.Basic
import TypeClues.Policy.Finder
import TypeClues.Proofs.Store.Constraints
import TypeClues.Proofs.Store.Merging

/-!
# What adding a constraint does

A new constraint is compared with the live ones in turn, and every comparison is a trial: keys that
turn out not to match leave nothing behind. What happens can be told without bindings, by the set of
substitutions that are still possible. A live constraint is merged if one of them makes the keys
equal, and from then on those are possible that make the keys and the constraints equal. The new
constraint is refused exactly if a merge leaves none.
-/
namespace TypeClues

def Bindings.solutions (B : Bindings) : Set Substitution := {θ | Solves θ B}

namespace Store
section Turns
variable (p : Policy)

/-- Both constraints have keys, and a possible substitution makes these equal. -/
def Meets (S : Set Substitution) (c d : Term) : Prop :=
  ∃ k l, p.key? c = some k ∧ p.key? d = some l ∧ ∃ θ ∈ S, k.subst θ = l.subst θ

def merging (S : Set Substitution) (c d : Term) : Set Substitution :=
  {θ ∈ S | (∀ k l, p.key? c = some k → p.key? d = some l → k.subst θ = l.subst θ) ∧
    c.subst θ = d.subst θ}

/-- There are no two keys to compare, and under bindings with these solutions the constraints are
identical. -/
def Same (S : Set Substitution) (c d : Term) : Prop :=
  (p.key? c = none ∨ p.key? d = none) ∧
    ∃ B : Bindings, B.Acyclic ∧ B.solutions = S ∧ B.substitute d = B.substitute c

open scoped Classical in
noncomputable def narrow (c : Term) (S : Set Substitution) (d : Term) : Set Substitution :=
  if Meets p S c d then merging p S c d else S

noncomputable def narrowAll (c : Term) (S : Set Substitution) (ds : List Term) :
    Set Substitution := ds.foldl (narrow p c) S

/-- Live constraints, each with what is possible when its turn comes. -/
noncomputable def turns (c : Term) : Set Substitution → List Term → List (Set Substitution × Term)
  | _, [] => []
  | S, d :: ds => (S, d) :: turns c (narrow p c S d) ds

open scoped Classical in
noncomputable def merged (c : Term) (S : Set Substitution) (ds : List Term) : List Term :=
  ((turns p c S ds).filter fun x => Meets p x.1 c x.2).map Prod.snd

open scoped Classical in
noncomputable def remaining (c : Term) (S : Set Substitution) (ds : List Term) : List Term :=
  ((turns p c S ds).filter fun x => ¬ Meets p x.1 c x.2 ∧ ¬ Same p x.1 c x.2).map Prod.snd

/-- Some merge leaves nothing possible. -/
def Refutes (c : Term) (S : Set Substitution) (ds : List Term) : Prop :=
  ∃ x ∈ turns p c S ds, Meets p x.1 c x.2 ∧ merging p x.1 c x.2 = ∅

end Turns

section Cons
variable {p : Policy} {c d : Term} {S : Set Substitution}

theorem narrow_of_meets (h : Meets p S c d) : narrow p c S d = merging p S c d := if_pos h

theorem narrow_of_not_meets (h : ¬ Meets p S c d) : narrow p c S d = S := if_neg h

theorem narrowAll_cons (c d : Term) (S : Set Substitution) (ds : List Term) :
    narrowAll p c S (d :: ds) = narrowAll p c (narrow p c S d) ds := rfl

theorem merged_cons_of_meets (h : Meets p S c d) (ds : List Term) :
    merged p c S (d :: ds) = d :: merged p c (merging p S c d) ds := by
  simp [merged, turns, h, narrow_of_meets h]

theorem merged_cons_of_not_meets (h : ¬ Meets p S c d) (ds : List Term) :
    merged p c S (d :: ds) = merged p c S ds := by
  simp [merged, turns, h, narrow_of_not_meets h]

theorem remaining_cons_of_meets (h : Meets p S c d) (ds : List Term) :
    remaining p c S (d :: ds) = remaining p c (merging p S c d) ds := by
  simp [remaining, turns, h, narrow_of_meets h]

theorem remaining_cons_of_same (h : ¬ Meets p S c d) (hs : Same p S c d) (ds : List Term) :
    remaining p c S (d :: ds) = remaining p c S ds := by
  simp [remaining, turns, hs, narrow_of_not_meets h]

theorem remaining_cons_of_kept (h : ¬ Meets p S c d) (hs : ¬ Same p S c d) (ds : List Term) :
    remaining p c S (d :: ds) = d :: remaining p c S ds := by
  simp [remaining, turns, h, hs, narrow_of_not_meets h]

theorem refutes_cons {ds : List Term} : Refutes p c S (d :: ds) ↔
    Meets p S c d ∧ merging p S c d = ∅ ∨ Refutes p c (narrow p c S d) ds := by
  simp [Refutes, turns]

end Cons

/-- What the turn of one live constraint can be, whatever the live constraints behind it are. -/
inductive Turn (p : Policy) (c : Term) (B : Bindings) (d : Term) : Prop
  | refuted (meets : Meets p B.solutions c d) (impossible : merging p B.solutions c d = ∅)
      (clash : Clash) (step : ∀ ds, merge p c B (d :: ds) = .error clash)
  | merged (meets : Meets p B.solutions c d) (B' : Bindings) (acyclic : B'.Acyclic)
      (solutions : B'.solutions = merging p B.solutions c d)
      (step : ∀ ds, merge p c B (d :: ds) = merge p c B' ds)
  | same (apart : ¬ Meets p B.solutions c d) (same : Same p B.solutions c d)
      (step : ∀ ds, merge p c B (d :: ds) = merge p c B ds)
  | kept (apart : ¬ Meets p B.solutions c d) (differ : ¬ Same p B.solutions c d)
      (step : ∀ ds, merge p c B (d :: ds) = (merge p c B ds).map fun r => (r.1, d :: r.2))

section Merge
variable {p : Policy} {c d : Term} {B : Bindings}

theorem solutions_nonempty (hB : B.Acyclic) : B.solutions.Nonempty :=
  ⟨B.solution, Bindings.solves_solution hB⟩

theorem same_solutions_iff (hB : B.Acyclic) : Same p B.solutions c d ↔
    (p.key? c = none ∨ p.key? d = none) ∧ B.substitute d = B.substitute c := by
  apply and_congr_right
  intro _
  constructor
  · rintro ⟨B', hB', hs, he⟩
    rw [Bindings.substitute_eq_substitute_iff hB'] at he
    rw [Bindings.substitute_eq_substitute_iff hB]
    intro θ hθ
    have hθ' : θ ∈ B'.solutions := hs ▸ hθ
    exact he θ hθ'
  · exact fun he => ⟨B, hB, rfl, he⟩

theorem merging_of_keys {S : Set Substitution} {k l : Term} (hk : p.key? c = some k)
    (hl : p.key? d = some l) :
    merging p S c d = {θ ∈ S | k.subst θ = l.subst θ ∧ c.subst θ = d.subst θ} := by
  simp [merging, hk, hl]

theorem turn_of_keys (hB : B.Acyclic) {k l : Term} (hk : p.key? c = some k)
    (hl : p.key? d = some l) : Turn p c B d := by
  have hmeets : Meets p B.solutions c d ↔ ∃ θ, Bindings.Solves θ B ∧ k.subst θ = l.subst θ := by
    simp [Meets, hk, hl, Bindings.solutions]
  have hdiffer : ¬ Same p B.solutions c d := by simp [Same, hk, hl]
  have hmerging := merging_of_keys (S := B.solutions) hk hl
  have hkl := Bindings.unify_correct hB k l
  cases hu : B.unify k l with
  | error clash =>
    rw [hu] at hkl
    apply Turn.kept _ hdiffer
    · intro ds
      simp only [merge, hk, hl, hu]
    · rw [hmeets]
      rintro ⟨θ, hθ, he⟩
      exact hkl.2 θ hθ he
  | ok B₁ =>
    rw [hu] at hkl
    have hm : Meets p B.solutions c d := by
      have hsol := (hkl.2 _).1 (Bindings.solves_solution hkl.1.acyclic)
      exact hmeets.2 ⟨_, hsol⟩
    have hcd := Bindings.unify_correct hkl.1.acyclic c d
    cases hu' : B₁.unify c d with
    | error clash =>
      rw [hu'] at hcd
      apply Turn.refuted hm _ (clash.within (.mergingConstraints c d))
      · intro ds
        simp only [merge, hk, hl, hu, hu']
      · rw [hmerging, Set.eq_empty_iff_forall_notMem]
        rintro θ ⟨hθ, hke, hce⟩
        exact hcd.2 θ ((hkl.2 θ).2 ⟨hθ, hke⟩) hce
    | ok B₂ =>
      rw [hu'] at hcd
      apply Turn.merged hm B₂ hcd.1.acyclic
      · ext θ
        rw [hmerging]
        calc θ ∈ B₂.solutions
          _ ↔ Bindings.Solves θ B₁ ∧ c.subst θ = d.subst θ := hcd.2 θ
          _ ↔ _ := by rw [hkl.2 θ, and_assoc]; rfl
      · intro ds
        simp only [merge, hk, hl, hu, hu']

theorem turn_of_keyless (hB : B.Acyclic) (h : p.key? c = none ∨ p.key? d = none) :
    Turn p c B d := by
  have hapart : ¬ Meets p B.solutions c d := by
    rintro ⟨k, l, hk, hl, -⟩
    rcases h with h | h
    · rw [h] at hk
      cases hk
    · rw [h] at hl
      cases hl
  have hstep (ds : List Term) : merge p c B (d :: ds) =
      if B.substitute d = B.substitute c then merge p c B ds
      else (merge p c B ds).map fun r => (r.1, d :: r.2) := by
    rw [merge]
    split
    · next k l hk hl => simp [hk, hl] at h
    · rfl
  by_cases he : B.substitute d = B.substitute c
  · apply Turn.same hapart ((same_solutions_iff hB).2 ⟨h, he⟩)
    intro ds
    rw [hstep, if_pos he]
  · apply Turn.kept hapart
    · rw [same_solutions_iff hB]
      exact fun hs => he hs.2
    · intro ds
      rw [hstep, if_neg he]

theorem turn (hB : B.Acyclic) (c d : Term) : Turn p c B d := by
  cases hk : p.key? c with
  | none => exact turn_of_keyless hB (.inl hk)
  | some k =>
    cases hl : p.key? d with
    | none => exact turn_of_keyless hB (.inr hl)
    | some l => exact turn_of_keys hB hk hl

/-- All turns: merging fails exactly if nothing is possible after some merge, and otherwise ends
with what is possible and with the constraints that are left. -/
theorem merge_cases (hB : B.Acyclic) (ds : List Term) :
    Refutes p c B.solutions ds ∧ (∃ clash, merge p c B ds = .error clash) ∨
      ¬ Refutes p c B.solutions ds ∧
        ∃ B', B'.solutions = narrowAll p c B.solutions ds ∧
          merge p c B ds = .ok (B', remaining p c B.solutions ds) := by
  induction ds generalizing B with
  | nil => exact .inr ⟨by simp [Refutes, turns], B, rfl, rfl⟩
  | cons d ds ih =>
    rw [refutes_cons, narrowAll_cons]
    cases turn (p := p) hB c d with
    | refuted meets impossible clash step =>
      exact .inl ⟨.inl ⟨meets, impossible⟩, clash, step ds⟩
    | merged meets B' acyclic solutions step =>
      have hne : merging p B.solutions c d ≠ ∅ := solutions ▸ (solutions_nonempty acyclic).ne_empty
      rw [narrow_of_meets meets, remaining_cons_of_meets meets, step, ← solutions]
      rw [← solutions] at hne
      simpa [hne] using ih acyclic
    | same apart same step =>
      rw [narrow_of_not_meets apart, remaining_cons_of_same apart same, step]
      simpa [apart] using ih hB
    | kept apart differ step =>
      rw [narrow_of_not_meets apart, remaining_cons_of_kept apart differ, step]
      rcases ih hB with ⟨hr, clash, hm⟩ | ⟨hr, B', hs, hm⟩
      · exact .inl ⟨.inr hr, clash, by rw [hm]; rfl⟩
      · exact .inr ⟨by simpa [apart] using hr, B', hs, by rw [hm]; rfl⟩

theorem reached_merge_merged (hB : B.Acyclic) (ds : List Term) :
    reached (merge p c B ds) = reached (merge p c B (merged p c B.solutions ds)) := by
  induction ds generalizing B with
  | nil => rfl
  | cons d ds ih =>
    cases turn (p := p) hB c d with
    | refuted meets impossible clash step =>
      rw [merged_cons_of_meets meets, step, step]
    | merged meets B' acyclic solutions step =>
      rw [merged_cons_of_meets meets, step, step, ← solutions]
      exact ih acyclic
    | same apart same step =>
      rw [merged_cons_of_not_meets apart, step]
      exact ih hB
    | kept apart differ step =>
      rw [merged_cons_of_not_meets apart, step, reached_map_keep]
      exact ih hB

end Merge

theorem bindings_constrain {p : Policy} {s : Store} (hf : s.failed = false) (c : Term) :
    (s.constrain p c).2.bindings = reached (merge p c s.bindings s.constraints) := by
  rw [constrain, guarded, hf]
  cases merge p c s.bindings s.constraints with
  | ok r => rfl
  | error clash => rfl

/-- Adding a constraint fails exactly if a merge leaves nothing possible, and then the live
constraints are as before. Otherwise the solutions are what is possible after all turns, and the
new constraint stands behind those that were neither merged nor identical to it. Either way the
bindings are those that the merged constraints alone lead to, so a constraint without a key adds
none. -/
theorem constrain_effect {p : Policy} {s : Store} (hs : s.Reachable p) (hf : s.failed = false)
    (c : Term) :
    ((s.constrain p c).1 ≠ .ok () ↔ Refutes p c s.bindings.solutions s.constraints) ∧
    ((s.constrain p c).1 ≠ .ok () → (s.constrain p c).1 = .error .mismatch ∧
      (s.constrain p c).2.constraints = s.constraints) ∧
    ((s.constrain p c).1 = .ok () →
      (s.constrain p c).2.bindings.solutions = narrowAll p c s.bindings.solutions s.constraints ∧
      (s.constrain p c).2.constraints =
        remaining p c s.bindings.solutions s.constraints ++ [c]) ∧
    (s.constrain p c).2.bindings = (constrain p
      { s with constraints := merged p c s.bindings.solutions s.constraints } c).2.bindings ∧
    (p.key? c = none → (s.constrain p c).1 = .ok () ∧
      (s.constrain p c).2.bindings = s.bindings) := by
  have hmerged : (s.constrain p c).2.bindings = (constrain p
      { s with constraints := merged p c s.bindings.solutions s.constraints } c).2.bindings := by
    rw [bindings_constrain hf, reached_merge_merged hs.acyclic]
    symm
    apply bindings_constrain
    exact hf
  have hkeyless : p.key? c = none → (s.constrain p c).1 = .ok () ∧
      (s.constrain p c).2.bindings = s.bindings := by
    intro hc
    rw [constrain_of_keyless hc hf]
    exact ⟨rfl, rfl⟩
  rcases merge_cases (p := p) (c := c) hs.acyclic s.constraints with
    ⟨hr, clash, hm⟩ | ⟨hr, B, hB, hm⟩
  · have hc : s.constrain p c =
        (.error .mismatch, { s with bindings := clash.reached, story := clash.story }) := by
      rw [constrain, guarded, hf, hm]
      rfl
    refine ⟨?_, ?_, ?_, hmerged, hkeyless⟩
    · simp [hc, hr]
    · simp [hc]
    · simp [hc]
  · have hc : s.constrain p c = (.ok (), { s with
        bindings := B
        constraints := remaining p c s.bindings.solutions s.constraints ++ [c] }) := by
      rw [constrain, guarded, hf, hm]
      rfl
    refine ⟨?_, ?_, ?_, hmerged, hkeyless⟩
    · simp [hc, hr]
    · simp [hc]
    · simp [hc, hB]

/-- The new key would bind `x` before it clashes with the first one. It matches the second, and only
this binds a variable. -/
theorem constrain_effect_failed_trial :
    let repr := fun t u : Term => Term.app (.app (.atom "RepresentedAs") t) u
    let pair := fun t u : Term => Term.app (.app (.atom "Pair") t) u
    let p := Policy.ofFinders [.head "RepresentedAs" 2 1]
    let c₁ := repr (pair (.var "x") (.atom "Int")) (.atom "Bit64")
    let c₂ := repr (pair (.atom "Bool") (.atom "Text")) (.atom "Bit32")
    let c := repr (pair (.atom "Bool") (.atom "Text")) (.var "r")
    let s := ((({} : Store).constrain p c₁).2.constrain p c₂).2
    s.Reachable p ∧ s.failed = false ∧ (s.constrain p c).1 = .ok () ∧
      (s.constrain p c).2.bindings = [("r", .atom "Bit32")] ∧
      narrowAll p c s.bindings.solutions s.constraints =
        Bindings.solutions [("r", .atom "Bit32")] ∧
      remaining p c s.bindings.solutions s.constraints = [c₁] := by
  intro repr pair p c₁ c₂ c s
  have hs : s.Reachable p := .constrain (.constrain .empty c₁) c₂
  have hf : s.failed = false := by decide
  have hok : (s.constrain p c).1 = .ok () := by decide
  have hb : (s.constrain p c).2.bindings = [("r", .atom "Bit32")] := by decide
  have hl : (s.constrain p c).2.constraints = [c₁] ++ [c] := by decide
  obtain ⟨hsol, hlive⟩ := (constrain_effect hs hf c).2.2.1 hok
  refine ⟨hs, hf, hok, hb, ?_, ?_⟩
  · rw [← hsol, hb]
  · rw [hl] at hlive
    exact (List.append_cancel_right hlive).symm

end Store
end TypeClues
