import TypeClues.Rule.Script

/-!
# Statements

A plain way to write scripts: a list of statements that run in order. Some of them end the script
when a condition does not hold.
-/
namespace TypeClues

/-- What a constant tells about types. -/
inductive Literal where
  | number
  | text
  /-- The constant spells out a type. -/
  | type (type : Qualified)
  | other
deriving DecidableEq

def Literal.type? : Literal → Option Qualified
  | .number => some (.plain (.atom "Int"))
  | .text => some (.plain (.atom "String"))
  | .type q => some q
  | .other => none

/-- A constant as it was given, with what it tells. -/
structure Constant (ρ : Type) where
  literal : Literal
  raw : ρ

inductive Statement (ρ : Type) where
  /-- Ends unless the clue is of this kind. -/
  | kind (index : Nat) (kind : String)
  /-- Fails and ends unless the clue is of this kind. -/
  | kindOrFail (index : Nat) (kind message : String) (blame : List Nat)
  /-- Ends unless there are this many clues. -/
  | arity (count : Nat)
  /-- Ends unless the clue has this constant. -/
  | constantIs (index : Nat) (value : ρ)
  | satisfied
  | fail (message : String) (blame : List Nat)
  | unifyType (type : Qualified) (index : Nat)
  | unifyClues (left right : Nat)
  /-- The clue under evaluation has the type of each dependency. -/
  | unifyAll
  /-- The second clue has the type that the constant of the first tells. -/
  | unifyConstant (index target : Nat)
  /-- Reports the type of a clue. -/
  | instantiate (index : Nat)
  /-- Reports what is plain to see of a clue. -/
  | look (index : Nat)

namespace Statement
variable {ρ : Type} [BEq ρ]

/-- The statement in front of the rest of a script. -/
def andThen (rest : Script (Constant ρ)) : Statement ρ → Script (Constant ρ)
  | .kind i k => .kind i fun found => if found = some k then rest else .done
  | .kindOrFail i k message blame =>
    .kind i fun found => if found = some k then rest else .fail message blame .done
  | .arity n => .arity fun count => if count = n then rest else .done
  | .constantIs i v => .constant i fun found =>
    match found with
    | some c => if c.raw == v then rest else .done
    | none => .done
  | .satisfied => .satisfied rest
  | .fail message blame => .fail message blame rest
  | .unifyType q i => .unifyType q i rest
  | .unifyClues i j => .unifyClues i j rest
  | .unifyAll => .arity fun count => ((List.range count).drop 1).foldr (.unifyClues 0) rest
  | .unifyConstant i j => .constant i fun found =>
    match found.bind fun c => c.literal.type? with
    | some q => .unifyType q j rest
    | none => .fail "unsupported constant" [i] rest
  | .instantiate i => .instantiate i fun type => .note (.instantiated i type) rest
  | .look i => .arity fun count => .kind i fun kind => .constant i fun constant =>
    .note (.looked i count kind constant) rest

end Statement

def Script.ofStatements {ρ : Type} [BEq ρ] (body : List (Statement ρ)) : Script (Constant ρ) :=
  body.foldr (fun statement rest => statement.andThen rest) .done

end TypeClues
