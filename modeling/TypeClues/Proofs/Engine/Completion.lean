import TypeClues.Proofs.Engine.Contract
import TypeClues.Proofs.Engine.Refinement
import TypeClues.Proofs.Rule.Blindness

/-!
# Rules can always be finished

A rule may make any calls with any indices. The tools that it calls go to the scope of a target
without looking whether there is one. The variants of the tools that do look, and give up where
there is none, never give up: there is a scope for each target, and every call keeps it so. The
store fails only together with the rule, so a rule that has not failed ends with a type for every
target.
-/
namespace TypeClues
namespace Workspace
variable {σ κ : Type} {w : Workspace σ κ}

/-! ### Tools that look before they go to a scope -/

def resolveTarget? (w : Workspace σ κ) (i : Nat) (c : Clue σ κ) :
    Option (Qualified × Workspace σ κ) :=
  if i < w.scopes.length then some (w.resolveTarget i c) else none

def unifyType? (w : Workspace σ κ) (q : Qualified) (i : Nat) : Option (Workspace σ κ) :=
  match w.failure, w.targets[i]? with
  | some _, _ => some w
  | none, none => some (w.fail (.noClue i) [])
  | none, some c =>
    let a := w.resolveType q
    (a.2.resolveTarget? i c).map fun b => b.2.unify a.1 b.1 (.typeClash i q) [i]

def unifyClues? (w : Workspace σ κ) (i j : Nat) : Option (Workspace σ κ) :=
  match w.failure, w.targets[i]?, w.targets[j]? with
  | some _, _, _ => some w
  | none, none, _ => some (w.fail (.noClue i) [])
  | none, some _, none => some (w.fail (.noClue j) [])
  | none, some c, some d =>
    (w.resolveTarget? i c).bind fun a =>
      (a.2.resolveTarget? j d).map fun b => b.2.unify a.1 b.1 (.clueClash i j) [i, j]

def instantiateTarget? (w : Workspace σ κ) (i : Nat) :
    Option (Except Store.Refusal Qualified × Workspace σ κ) :=
  match w.targets[i]? with
  | none => some (.error .mismatch, w)
  | some c => (w.resolveTarget? i c).map fun r => (r.2.store.instantiate r.1, r.2)

def instantiate? (w : Workspace σ κ) (i : Nat) : Option (Option Qualified × Workspace σ κ) :=
  match w.failure with
  | some _ => some (none, w)
  | none => (w.instantiateTarget? i).map fun r => (r.1.toOption, r.2)

/-- The workspace after a call, unless the call goes to a scope that is not there. -/
def serve? (w : Workspace σ κ) : Call κ → Option (Workspace σ κ)
  | .instantiate i => (w.instantiate? i).map Prod.snd
  | .unifyType q i => w.unifyType? q i
  | .unifyClues i j => w.unifyClues? i j
  | call => some (w.serve call)

def serveAll? : List (Call κ) → Workspace σ κ → Option (Workspace σ κ)
  | [], w => some w
  | call :: calls, w => (w.serve? call).bind (serveAll? calls)

/-- The types of the clues at these indices, unless that goes to a scope that is not there. -/
def instantiateEach? :
    List Nat → Workspace σ κ → Option (Except (Diagnostic σ) (List Qualified))
  | [], _ => some (.ok [])
  | i :: is, w =>
    (w.instantiateTarget? i).bind fun r =>
      match r.1 with
      | .ok q => (instantiateEach? is r.2).map fun types => types.map (q :: ·)
      | .error _ =>
        some (.error (.reported (r.2.report (.notInstantiable i))
          (w.targets[i]?.toList.map Clue.source)))

/-! ### They never give up -/

namespace Sound

theorem resolveTarget?_eq (hw : w.Sound) {i : Nat} {c : Clue σ κ} (hc : w.targets[i]? = some c)
    (d : Clue σ κ) : w.resolveTarget? i d = some (w.resolveTarget i d) := by
  have hi := (List.getElem?_eq_some_iff.1 hc).1
  rw [← hw.scopes] at hi
  exact if_pos hi

theorem unifyType?_eq (hw : w.Sound) (q : Qualified) (i : Nat) :
    w.unifyType? q i = some (w.unifyType q i) := by
  rw [unifyType?, Workspace.unifyType]
  cases w.failure with
  | some d => rfl
  | none =>
    cases hc : w.targets[i]? with
    | none => rfl
    | some c =>
      have hr := resolveType_resolves hw q
      have hi : (w.resolveType q).2.targets[i]? = some c := by rw [hr.extend.targets, hc]
      simp only [hr.sound.resolveTarget?_eq hi, Option.map_some]

theorem unifyClues?_eq (hw : w.Sound) (i j : Nat) :
    w.unifyClues? i j = some (w.unifyClues i j) := by
  rw [unifyClues?, Workspace.unifyClues]
  cases w.failure with
  | some d => rfl
  | none =>
    cases hc : w.targets[i]? with
    | none => rfl
    | some c =>
      cases hd : w.targets[j]? with
      | none => rfl
      | some d =>
        have hr := resolveTarget_resolves hw (List.getElem?_eq_some_iff.1 hc).1 c
        have hj : (w.resolveTarget i c).2.targets[j]? = some d := by rw [hr.extend.targets, hd]
        simp only [hw.resolveTarget?_eq hc, hr.sound.resolveTarget?_eq hj, Option.bind_some,
          Option.map_some]

theorem instantiateTarget?_eq (hw : w.Sound) (i : Nat) :
    w.instantiateTarget? i = some (w.instantiateTarget i) := by
  rw [instantiateTarget?, instantiateTarget]
  cases hc : w.targets[i]? with
  | none => rfl
  | some c => simp only [hw.resolveTarget?_eq hc, Option.map_some]

theorem instantiate?_eq (hw : w.Sound) (i : Nat) : w.instantiate? i = some (w.instantiate i) := by
  rw [instantiate?, Workspace.instantiate]
  cases w.failure with
  | some d => rfl
  | none => rw [hw.instantiateTarget?_eq, Option.map_some]

theorem serve?_eq (hw : w.Sound) (call : Call κ) : w.serve? call = some (w.serve call) := by
  cases call with
  | instantiate i =>
    rw [serve?, hw.instantiate?_eq]
    rfl
  | unifyType q i => exact hw.unifyType?_eq q i
  | unifyClues i j => exact hw.unifyClues?_eq i j
  | _ => rfl

theorem serveAll (hw : w.Sound) (calls : List (Call κ)) : (w.serveAll calls).Sound :=
  List.foldlRecOn calls Workspace.serve hw fun _ h call _ => h.serve call

theorem serveAll?_eq (hw : w.Sound) (calls : List (Call κ)) :
    serveAll? calls w = some (w.serveAll calls) := by
  induction calls generalizing w with
  | nil => rfl
  | cons call calls ih => rw [serveAll?, hw.serve?_eq, Option.bind_some, ih (hw.serve call),
      serveAll_cons]

theorem instantiateEach?_eq (hw : w.Sound) (is : List Nat) :
    instantiateEach? is w = some (instantiateEach is w) := by
  induction is generalizing w with
  | nil => rfl
  | cons i is ih =>
    rw [instantiateEach?, instantiateEach, hw.instantiateTarget?_eq, Option.bind_some]
    cases (w.instantiateTarget i).1 with
    | ok q => simp only [ih (instantiateTarget_sound hw i), Option.map_some]
    | error x => rfl

theorem instantiate_eq_none_iff (hw : w.Sound) (i : Nat) :
    (w.instantiate i).1 = none ↔ w.failure.isSome ∨ w.targets.length ≤ i := by
  rw [Workspace.instantiate]
  cases hf : w.failure with
  | some d => simp
  | none =>
    rw [Workspace.instantiateTarget]
    cases hc : w.targets[i]? with
    | none => simp [Except.toOption, List.getElem?_eq_none_iff.1 hc]
    | some c =>
      have hi := (List.getElem?_eq_some_iff.1 hc).1
      have hr := resolveTarget_resolves hw hi c
      obtain ⟨q, hq⟩ := Store.exists_instantiate (hw.intact hf) (w.resolveTarget i c).1
      rw [← hr.extend.store] at hq
      simpa [hq, Except.toOption] using hi

end Sound

theorem targets_serveAll (w : Workspace σ κ) (calls : List (Call κ)) :
    (w.serveAll calls).targets = w.targets :=
  List.foldlRecOn (motive := fun v : Workspace σ κ => v.targets = w.targets) calls serve rfl
    fun v h call _ => (targets_serve v call).trans h

end Workspace

namespace Engine
open Workspace
variable {σ κ : Type} {p : Policy} {e m : Engine σ κ} {es : List (Event σ κ)} {c : Clue σ κ}
  {rs : List (Rule κ)}

theorem Visit.ids_workspace (he : e.WellFormed) (h : Visit e c rs m) :
    (m.workspace c.targets).targets.map Clue.id = c.targets := by
  have hid : ∀ t ∈ c.targets, (m.at? t).map Clue.id = some t := by
    intro t ht
    obtain ⟨d, hd⟩ := h.exists_find? he ht
    obtain ⟨hat, rfl⟩ := find?_eq_some_iff.1 hd
    rw [hat]
    rfl
  have hw : (m.workspace c.targets).targets = c.targets.filterMap m.at? := rfl
  rw [hw, List.map_filterMap, List.filterMap_congr hid, List.filterMap_some]

/-- Wherever a rule may start, and whatever calls it makes: no call goes to a scope that is not
there, and the store has failed only if the rule has. If the rule has not failed, finishing it does
not go to such a scope either, and ends with a type for every clue that the rule is run on. The rule
is told the type of a clue unless it has failed or there is no clue at the index. -/
theorem completes_unless_failed (hh : History p e es) (h : Visit e c rs m) (calls : List (Call κ)) :
    let w := (m.workspace c.targets).serveAll calls
    serveAll? calls (m.workspace c.targets) = some w ∧
      (w.store.failed → w.failure.isSome) ∧
      (w.failure = none → ∃ types,
        instantiateEach? (List.range w.targets.length) w = some (.ok types) ∧
        w.verdict = .refined types ∧ types.length = c.targets.length) ∧
      ∀ i, w.instantiate? i = some (w.instantiate i) ∧
        ((w.instantiate i).1 = none ↔ w.failure.isSome ∨ c.targets.length ≤ i) := by
  intro w
  have hstart : (m.workspace c.targets).Sound := new_sound m.policy _
  have hw : w.Sound := hstart.serveAll calls
  have hlen : w.targets.length = c.targets.length := by
    have hids := congrArg List.length (h.ids_workspace hh.wellFormed)
    rwa [List.length_map, ← targets_serveAll _ calls] at hids
  refine ⟨hstart.serveAll?_eq calls, fun hs => ?_, fun hf => ?_, fun i => ?_⟩
  · by_contra hn
    rw [Option.not_isSome_iff_eq_none] at hn
    rw [hw.intact hn] at hs
    cases hs
  · obtain ⟨types, -, hts, -, -, htypes, -⟩ := hw.exists_types hf
    refine ⟨types, by rw [hw.instantiateEach?_eq, hts], ?_, htypes.trans hlen⟩
    simp only [verdict, hf, hts]
  · rw [← hlen]
    exact ⟨hw.instantiate?_eq i, hw.instantiate_eq_none_iff i⟩

/-- Calls that go well, though one of them asks for a clue that is not there. -/
def calmCalls : List (Call (Constant Unit)) :=
  [.unifyType (.plain (.atom "Int")) 1, .instantiate 9, .unifyClues 1 2]

/-- Calls that go on with a clash and then name a clue that is not there. -/
def clashingCalls : List (Call (Constant Unit)) :=
  calmCalls ++ [.unifyType (.plain (.atom "Bool")) 2, .unifyClues 0 9]

theorem completes_unless_failed_pin :
    let e := (drive 3 {} (pinning [hole, hole])).1
    ∃ c rest, Visit e c [pin, stop] { e with pending := rest } ∧
      let calm := (workspace { e with pending := rest } c.targets).serveAll calmCalls
      let broken := (workspace { e with pending := rest } c.targets).serveAll clashingCalls
      calm.failure = none ∧ (∃ types, calm.verdict = .refined types ∧ types.length = 3) ∧
        (calm.instantiate 2).1 ≠ none ∧ (calm.instantiate 3).1 = none ∧
        broken.store.failed ∧ broken.failure.isSome ∧ (broken.instantiate 2).1 = none := by
  intro e
  obtain ⟨c, rest, ht, h, -⟩ := exists_visit_pinning_twice
  have hh := history_drive 3 {} (pinning [hole, hole])
  have hlen : c.targets.length = 3 := by rw [ht]; rfl
  have hcalm : ((e.workspace c.targets).serveAll calmCalls).failure = none := by
    rw [ht]
    decide +kernel
  have hbroken : ((e.workspace c.targets).serveAll clashingCalls).store.failed := by
    rw [ht]
    decide +kernel
  obtain ⟨-, -, hdone, htold⟩ := completes_unless_failed hh h calmCalls
  obtain ⟨-, hfails, -, htold'⟩ := completes_unless_failed hh h clashingCalls
  obtain ⟨types, -, hv, htypes⟩ := hdone hcalm
  have hfailure := hfails hbroken
  refine ⟨c, rest, h, hcalm, ⟨types, hv, htypes.trans hlen⟩, ?_, (htold 3).2.2 (.inr hlen.le),
    hbroken, hfailure, (htold' 2).2.2 (.inl hfailure)⟩
  intro hnone
  rcases (htold 2).2.1 hnone with hs | hle
  · exact absurd hcalm (Option.isSome_iff_ne_none.1 hs)
  · omega

end Engine
end TypeClues
