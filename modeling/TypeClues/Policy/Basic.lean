import TypeClues.Term.Basic

/-!
# Key policies

A policy gives some constraints a key. Two constraints whose keys are equal have to be equal
themselves, so a key is the part of a constraint that determines the rest.
-/
namespace TypeClues

/-- Finders of keys, in the order in which they are asked. -/
structure Policy where
  finders : List (Term → Option Term) := []

namespace Policy

def key? (p : Policy) (constraint : Term) : Option Term := p.finders.findSome? (· constraint)

/-- A constraint for which no finder answers is its own key. -/
def key (p : Policy) (constraint : Term) : Term := (p.key? constraint).getD constraint

def inspect (p : Policy) : String :=
  "FunctionalDependencies \x7b key_finders: " ++ toString p.finders.length ++ " \x7d"

end Policy
end TypeClues
