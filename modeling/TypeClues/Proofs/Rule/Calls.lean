import TypeClues.Rule.Workspace

/-!
# The calls of a script

A script that runs in a workspace makes one call after the other, and the answers decide which call
comes next. What becomes of the workspace depends on the list of calls only, so what every single
call keeps is kept by all scripts.
-/
namespace TypeClues

/-- One use of a tool by a rule. -/
inductive Call (κ : Type) where
  | arity
  | kind (index : Nat)
  | constant (index : Nat)
  | instantiate (index : Nat)
  | satisfied
  | fail (message : String) (blame : List Nat)
  | unifyType (type : Qualified) (index : Nat)
  | unifyClues (left right : Nat)
  | note (observation : Observation κ)

namespace Workspace
variable {σ κ : Type}

def serve (w : Workspace σ κ) : Call κ → Workspace σ κ
  | .arity => w
  | .kind _ => w
  | .constant _ => w
  | .instantiate i => (w.instantiate i).2
  | .satisfied => { w with satisfied := true }
  | .fail message blame => w.fail (.stated message) blame
  | .unifyType q i => w.unifyType q i
  | .unifyClues i j => w.unifyClues i j
  | .note o => { w with seen := w.seen ++ [o] }

def serveAll (w : Workspace σ κ) (cs : List (Call κ)) : Workspace σ κ := cs.foldl serve w

def calls : Script κ → Workspace σ κ → List (Call κ)
  | .done, _ => []
  | .arity next, w => .arity :: calls (next w.targets.length) w
  | .kind i next, w => .kind i :: calls (next (w.targets[i]?.map Clue.kind)) w
  | .constant i next, w => .constant i :: calls (next (w.targets[i]?.map Clue.constant)) w
  | .instantiate i next, w =>
    .instantiate i :: calls (next (w.instantiate i).1) (w.serve (.instantiate i))
  | .satisfied next, w => .satisfied :: calls next (w.serve .satisfied)
  | .fail message blame next, w => .fail message blame :: calls next (w.serve (.fail message blame))
  | .unifyType q i next, w => .unifyType q i :: calls next (w.serve (.unifyType q i))
  | .unifyClues i j next, w => .unifyClues i j :: calls next (w.serve (.unifyClues i j))
  | .note o next, w => .note o :: calls next (w.serve (.note o))

@[simp] theorem serveAll_nil (w : Workspace σ κ) : w.serveAll [] = w := rfl

@[simp] theorem serveAll_cons (w : Workspace σ κ) (c : Call κ) (cs : List (Call κ)) :
    w.serveAll (c :: cs) = (w.serve c).serveAll cs := rfl

/-- Running a script is making its calls. -/
theorem run_eq_serveAll (s : Script κ) (w : Workspace σ κ) : run s w = w.serveAll (calls s w) := by
  induction s generalizing w with
  | done => rfl
  | arity next ih => exact ih _ w
  | kind i next ih => exact ih _ w
  | constant i next ih => exact ih _ w
  | instantiate i next ih => exact ih _ (w.serve (.instantiate i))
  | satisfied next ih => exact ih (w.serve .satisfied)
  | fail message blame next ih => exact ih (w.serve (.fail message blame))
  | unifyType q i next ih => exact ih (w.serve (.unifyType q i))
  | unifyClues i j next ih => exact ih (w.serve (.unifyClues i j))
  | note o next ih => exact ih (w.serve (.note o))

/-- What every call keeps is kept by all calls of a script. -/
theorem run_of_serve {P : Workspace σ κ → Prop} (h : ∀ w c, P w → P (w.serve c)) (s : Script κ)
    {w : Workspace σ κ} (hw : P w) : P (run s w) := by
  rw [run_eq_serveAll]
  exact List.foldlRecOn (calls s w) serve hw fun v hv c _ => h v c hv

end Workspace
end TypeClues
