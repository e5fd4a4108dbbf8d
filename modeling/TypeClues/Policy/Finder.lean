import TypeClues.Policy.Basic

/-!
# Key finders

Descriptions of the usual key finders. A finder that looks for a name looks at the head of a
constraint.
-/
namespace TypeClues

inductive Finder where
  /-- Constraints with this head and this many arguments: the head with the first few of them. -/
  | head (name : String) (arity keep : Nat)
  /-- Constraints with this head: one argument, counted from zero. -/
  | argument (name : String) (index : Nat)
  /-- Applications: the function. -/
  | function
  /-- Every constraint is its own key. -/
  | itself
  /-- No constraint has a key. -/
  | never
  /-- One key for all constraints. -/
  | always (key : Term)
  /-- One key for all atoms. -/
  | atoms (key : Term)
  /-- One key for all variables. -/
  | vars (key : Term)
deriving DecidableEq

namespace Finder

def find : Finder → Term → Option Term
  | .head name arity keep, c =>
    if c.spine.1 = .atom name ∧ c.spine.2.length = arity then
      some (Term.apply (.atom name) (c.spine.2.take keep))
    else none
  | .argument name index, c => if c.spine.1 = .atom name then c.spine.2[index]? else none
  | .function, .app f _ => some f
  | .function, _ => none
  | .itself, c => some c
  | .never, _ => none
  | .always key, _ => some key
  | .atoms key, .atom _ => some key
  | .atoms _, _ => none
  | .vars key, .var _ => some key
  | .vars _, _ => none

end Finder

def Policy.ofFinders (finders : List Finder) : Policy := ⟨finders.map Finder.find⟩

end TypeClues
