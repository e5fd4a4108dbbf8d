import TypeClues.Qualified.Basic

/-!
# Rule scripts

A rule looks at a clue and its dependencies through a few questions and says what it finds. The
clue under evaluation has index zero and its dependencies follow. A script is the tree of all that
a rule may ask and say: every answer leads to the rest of the script, and every way through it
ends.
-/
namespace TypeClues

/-- What a rule reports about its work to the outside. -/
inductive Observation (κ : Type) where
  | instantiated (index : Nat) (type : Option Qualified)
  | looked (index arity : Nat) (kind : Option String) (constant : Option κ)

inductive Script (κ : Type) where
  | done
  /-- How many clues are there? -/
  | arity (next : Nat → Script κ)
  | kind (index : Nat) (next : Option String → Script κ)
  | constant (index : Nat) (next : Option κ → Script κ)
  /-- The type of a clue as known at this point. -/
  | instantiate (index : Nat) (next : Option Qualified → Script κ)
  /-- The rule is about this clue, so from now on failures are errors. -/
  | satisfied (next : Script κ)
  | fail (message : String) (blame : List Nat) (next : Script κ)
  /-- The clue at an index has a type of this form. -/
  | unifyType (type : Qualified) (index : Nat) (next : Script κ)
  /-- Two clues have the same type. -/
  | unifyClues (left right : Nat) (next : Script κ)
  | note (observation : Observation κ) (next : Script κ)

structure Rule (κ : Type) where
  name : String := "rule"
  script : Script κ

end TypeClues
