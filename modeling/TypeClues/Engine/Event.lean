import TypeClues.Log.Logger
import TypeClues.Rule.Workspace

/-!
# Events

Everything that an engine does, in order. Most events are logged at a level of their own;
observations are for whoever reads the events.
-/
namespace TypeClues

inductive Event (σ κ : Type) where
  | ruleAdded (name : String) (position : Nat)
  | clueAdded (id : ClueId) (dependencies : Nat)
  | dequeued (id : ClueId)
  /-- The clue depends on this many clues in error. -/
  | inherited (id : ClueId) (count : Nat)
  | notApplicable (rule : String) (id : ClueId) (error : Diagnostic σ)
  | ruleFailed (rule : String) (id : ClueId) (error : Diagnostic σ)
  /-- The stored type of a clue was replaced. -/
  | refined (id : ClueId) (old new : Qualified)
  /-- Nothing is pending any more. -/
  | settled (steps : Nat)
  | observed (observation : Observation κ)

namespace Event
variable {σ κ : Type}

/-- The target of the engine's log records. -/
def logTarget : String := "sleuth_infer::engine::inferrer"

def level? : Event σ κ → Option Level
  | .ruleAdded .. => some .debug
  | .clueAdded .. => some .debug
  | .dequeued .. => some .trace
  | .inherited .. => some .debug
  | .notApplicable .. => some .trace
  | .ruleFailed .. => some .debug
  | .refined .. => some .debug
  | .settled .. => some .debug
  | .observed .. => none

def message : Event σ κ → String
  | .ruleAdded name n => "registered rule " ++ name ++ " (#" ++ toString n ++ ")"
  | .clueAdded id n =>
    "created clue " ++ id.render ++ " depending on " ++ toString n ++ " clue(s)"
  | .dequeued id => "dequeued " ++ id.render
  | .inherited id n => id.render ++ " depends on " ++ toString n ++ " errored clue(s)"
  | .notApplicable rule id d =>
    rule ++ " does not apply to " ++ id.render ++ ": " ++ Text.firstLine d.message
  | .ruleFailed rule id d => rule ++ " failed on " ++ id.render ++ ": " ++ d.message
  | .refined id old new => id.render ++ ": " ++ old.render ++ " => " ++ new.render
  | .settled n => "process reached a fixpoint after " ++ toString n ++ " step(s)"
  | .observed _ => ""

def record? (e : Event σ κ) : Option Record :=
  e.level?.map fun level => ⟨level, logTarget, e.message⟩

def observation? : Event σ κ → Option (Observation κ)
  | .observed o => some o
  | _ => none

end Event
end TypeClues
