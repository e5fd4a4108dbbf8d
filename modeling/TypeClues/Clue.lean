import TypeClues.Naming.Supply
import TypeClues.Qualified.Basic
import TypeClues.Term.Render

/-!
# Clues

A clue is a piece of evidence about a type: what kind of evidence, where it was found, a constant
that it carries, and the earlier clues it depends on. Its type is what is known so far.
-/
namespace TypeClues

/-- A clue is known by the allocation made for its kind. -/
abbrev ClueId := Allocation

namespace Allocation

/-- The place of a clue in a table of clues. -/
def slot (id : ClueId) : Nat := id.serial - 1

def render (id : ClueId) : String := id.word ++ "#" ++ toString id.number

def inspect (id : ClueId) : String :=
  "ClueId \x7b word: " ++ inspectName id.word ++ ", number: " ++ toString id.number ++
    ", absolute: " ++ toString id.serial ++ " \x7d"

end Allocation

/-- What is wrong with a clue. -/
inductive Diagnostic (σ : Type) where
  /-- Stated in words, with the sources to blame. -/
  | reported (message : String) (culpable : List σ)
  /-- A clue it depends on is in error. -/
  | inherited (dependency : ClueId)
deriving DecidableEq

namespace Diagnostic
variable {σ : Type}

def message : Diagnostic σ → String
  | .reported message _ => message
  | .inherited id => "depended-on clue had an error: " ++ id.render

def culpable : Diagnostic σ → List σ
  | .reported _ culpable => culpable
  | .inherited _ => []

/-- The same words and the same sources. -/
def Agrees (d e : Diagnostic σ) : Prop := d.message = e.message ∧ d.culpable = e.culpable

instance [DecidableEq σ] (d e : Diagnostic σ) : Decidable (d.Agrees e) :=
  inferInstanceAs (Decidable (_ ∧ _))

def inspect (source : σ → String) (d : Diagnostic σ) : String :=
  "InferenceError \x7b message: " ++ Text.quoted d.message ++ ", culpable: " ++
    Text.bracketed (d.culpable.map source) ++ " \x7d"

end Diagnostic

structure UnknownClue where
  id : ClueId
deriving DecidableEq

namespace UnknownClue

def message (u : UnknownClue) : String :=
  "can't depend on a clue that doesn't exist: " ++ u.id.render

def inspect (u : UnknownClue) : String := "UnknownClue(" ++ u.id.inspect ++ ")"

end UnknownClue

structure Clue (σ κ : Type) where
  id : ClueId
  source : σ
  constant : κ
  dependencies : List ClueId
  dependents : OrderedSet ClueId := ∅
  type : Qualified := .mostGeneral
  errors : List (Diagnostic σ) := []

namespace Clue
variable {σ κ : Type}

def kind (c : Clue σ κ) : String := c.id.word

def hasError (c : Clue σ κ) : Bool := !c.errors.isEmpty

end Clue
end TypeClues
