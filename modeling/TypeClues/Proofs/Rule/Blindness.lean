import TypeClues.Proofs.Rule.Calls
import TypeClues.Proofs.Rule.View
import TypeClues.Rule.Statement

/-!
# Rules that do not look at types

A rule can ask for the type of a clue while it runs, and go on as the answer says. A script is blind
if the answer makes no difference but to what it reports. Everything written in statements is blind.
Notes apart, the calls of a blind script are decided by the kinds and the constants of its targets,
so the same rule makes the same calls again after their types have changed.
-/
namespace TypeClues

namespace Script
variable {κ : Type}

/-- The script without its notes, as it goes on when no type is known. -/
def outline : Script κ → Script κ
  | .done => .done
  | .arity next => .arity fun n => (next n).outline
  | .kind i next => .kind i fun k => (next k).outline
  | .constant i next => .constant i fun c => (next c).outline
  | .instantiate i next => .instantiate i fun _ => (next none).outline
  | .satisfied next => .satisfied next.outline
  | .fail message blame next => .fail message blame next.outline
  | .unifyType q i next => .unifyType q i next.outline
  | .unifyClues i j next => .unifyClues i j next.outline
  | .note _ next => next.outline

/-- Whatever type the script is told, it goes on in the same way, notes apart. -/
def Blind : Script κ → Prop
  | .done => True
  | .arity next => ∀ n, (next n).Blind
  | .kind _ next => ∀ k, (next k).Blind
  | .constant _ next => ∀ c, (next c).Blind
  | .instantiate _ next => ∀ q, (next q).Blind ∧ (next q).outline = (next none).outline
  | .satisfied next => next.Blind
  | .fail _ _ next => next.Blind
  | .unifyType _ _ next => next.Blind
  | .unifyClues _ _ next => next.Blind
  | .note _ next => next.Blind

end Script

section Statements
variable {ρ : Type} [BEq ρ]

theorem Statement.blind_andThen (s : Statement ρ) {rest : Script (Constant ρ)} (h : rest.Blind) :
    (s.andThen rest).Blind := by
  cases s with
  | kind i k =>
    intro found
    by_cases hk : found = some k
    · simpa [hk] using h
    · simp [hk, Script.Blind]
  | kindOrFail i k message blame =>
    intro found
    by_cases hk : found = some k
    · simpa [hk] using h
    · simp [hk, Script.Blind]
  | arity n =>
    intro count
    by_cases hn : count = n
    · simpa [hn] using h
    · simp [hn, Script.Blind]
  | constantIs i v =>
    intro found
    cases found with
    | none => trivial
    | some c =>
      by_cases hv : c.raw == v
      · simpa [hv] using h
      · simp [hv, Script.Blind]
  | satisfied => exact h
  | fail message blame => exact h
  | unifyType q i => exact h
  | unifyClues i j => exact h
  | unifyAll =>
    intro count
    exact List.foldrRecOn (motive := Script.Blind) _ _ h fun _ hs _ _ => hs
  | unifyConstant i j =>
    intro found
    cases hq : found.bind fun c => c.literal.type? with
    | none => simpa only [hq, Script.Blind] using h
    | some q => simpa only [hq, Script.Blind] using h
  | instantiate i =>
    intro q
    exact ⟨h, rfl⟩
  | look i =>
    intro count kind constant
    exact h

theorem Script.blind_ofStatements (body : List (Statement ρ)) : (Script.ofStatements body).Blind :=
  List.foldrRecOn (motive := Script.Blind) body _ trivial fun _ h s _ => s.blind_andThen h

end Statements

/-- What a script learns about a clue other than its type. -/
def Clue.nature {σ κ : Type} (c : Clue σ κ) : String × κ := (c.kind, c.constant)

def Call.isNote {κ : Type} : Call κ → Bool
  | .note _ => true
  | _ => false

namespace Workspace
variable {σ κ : Type} {w w' : Workspace σ κ}

theorem targets_serve (w : Workspace σ κ) (c : Call κ) : (w.serve c).targets = w.targets := by
  cases c with
  | arity => rfl
  | kind i => rfl
  | constant i => rfl
  | instantiate i =>
    exact targets_of_retarget (congrArg Prod.snd (instantiate_retarget (w := w) rfl i))
  | satisfied => rfl
  | fail message blame => exact targets_of_retarget (fail_retarget (w := w) rfl _ blame)
  | unifyType q i => exact targets_of_retarget (unifyType_retarget (w := w) rfl q i)
  | unifyClues i j => exact targets_of_retarget (unifyClues_retarget (w := w) rfl i j)
  | note o => rfl

/-- To a script that sees no types the workspaces look the same. -/
def Alike (w w' : Workspace σ κ) : Prop :=
  w'.targets.map Clue.nature = w.targets.map Clue.nature

theorem Alike.serve (h : w.Alike w') (c d : Call κ) : (w.serve c).Alike (w'.serve d) := by
  rw [Alike, targets_serve, targets_serve]
  exact h

theorem Alike.length (h : w.Alike w') : w'.targets.length = w.targets.length := by
  simpa using congrArg List.length h

theorem Alike.getElem? {α : Type} (h : w.Alike w') (f : String × κ → α) (i : Nat) :
    w'.targets[i]?.map (fun c => f c.nature) = w.targets[i]?.map (fun c => f c.nature) := by
  have hi : (w'.targets.map Clue.nature)[i]?.map f = (w.targets.map Clue.nature)[i]?.map f := by
    rw [h]
  simpa [List.getElem?_map, Function.comp_def] using hi

theorem calls_outline_of_alike (s : Script κ) (h : w.Alike w') :
    calls s.outline w' = calls s.outline w := by
  induction s generalizing w w' with
  | done => rfl
  | arity next ih =>
    rw [Script.outline, calls, calls, h.length, ih _ h]
  | kind i next ih =>
    have hk : w'.targets[i]?.map Clue.kind = w.targets[i]?.map Clue.kind := h.getElem? Prod.fst i
    rw [Script.outline, calls, calls, hk, ih _ h]
  | constant i next ih =>
    have hc : w'.targets[i]?.map Clue.constant = w.targets[i]?.map Clue.constant :=
      h.getElem? Prod.snd i
    rw [Script.outline, calls, calls, hc, ih _ h]
  | instantiate i next ih => rw [Script.outline, calls, calls, ih none (h.serve _ _)]
  | satisfied next ih => rw [Script.outline, calls, calls, ih (h.serve _ _)]
  | fail message blame next ih => rw [Script.outline, calls, calls, ih (h.serve _ _)]
  | unifyType q i next ih => rw [Script.outline, calls, calls, ih (h.serve _ _)]
  | unifyClues i j next ih => rw [Script.outline, calls, calls, ih (h.serve _ _)]
  | note o next ih => exact ih h

theorem filter_calls {s : Script κ} (hs : s.Blind) (w : Workspace σ κ) :
    (calls s w).filter (fun c => !c.isNote) = calls s.outline w := by
  induction s generalizing w with
  | done => rfl
  | arity next ih =>
    rw [calls, Script.outline, calls, List.filter_cons_of_pos rfl, ih _ (hs _)]
  | kind i next ih =>
    rw [calls, Script.outline, calls, List.filter_cons_of_pos rfl, ih _ (hs _)]
  | constant i next ih =>
    rw [calls, Script.outline, calls, List.filter_cons_of_pos rfl, ih _ (hs _)]
  | instantiate i next ih =>
    obtain ⟨hb, he⟩ := hs (w.instantiate i).1
    rw [calls, Script.outline, calls, List.filter_cons_of_pos rfl, ih _ hb, he]
  | satisfied next ih =>
    rw [calls, Script.outline, calls, List.filter_cons_of_pos rfl, ih hs]
  | fail message blame next ih =>
    rw [calls, Script.outline, calls, List.filter_cons_of_pos rfl, ih hs]
  | unifyType q i next ih =>
    rw [calls, Script.outline, calls, List.filter_cons_of_pos rfl, ih hs]
  | unifyClues i j next ih =>
    rw [calls, Script.outline, calls, List.filter_cons_of_pos rfl, ih hs]
  | note o next ih =>
    have ha : w.Alike (w.serve (.note o)) := rfl
    rw [calls, List.filter_cons_of_neg (by simp [Call.isNote]), ih hs, calls_outline_of_alike next ha]
    rfl

/-- A blind script calls for the same things wherever it cannot see a difference. -/
theorem filter_calls_of_alike {s : Script κ} (hs : s.Blind) (h : w.Alike w') :
    (calls s w').filter (fun c => !c.isNote) = (calls s w).filter (fun c => !c.isNote) := by
  rw [filter_calls hs, filter_calls hs, calls_outline_of_alike s h]

end Workspace
end TypeClues
