import TypeClues.Orbit
import TypeClues.Qualified.Basic

/-!
# Canonical names

Terms and types whose variables are placeholders are compared by their canonical forms, in which
the variables are numbered. The variables of a term are numbered in the order of their first
occurrences. A type reads its term first and its constraints after it; since new names can change
the order of constraints, its numbering is repeated until it recurs, and the least of the
recurring types is the canonical one.
-/
namespace TypeClues

/-- First occurrences only. -/
def distinct : List String → List String
  | [] => []
  | v :: vs => v :: (distinct vs).filter (· ≠ v)

def canonicalName (position : Nat) : String := "var_" ++ toString position

/-- Renames each variable to its place in the list. -/
def numbered (names : List String) (v : String) : String := canonicalName (names.idxOf v + 1)

namespace Term

def canonical (t : Term) : Term := t.rename (numbered (distinct t.vars))

/-- Equal up to the names of variables. -/
def Equivalent (t u : Term) : Prop := t.canonical = u.canonical

instance (t u : Term) : Decidable (t.Equivalent u) := inferInstanceAs (Decidable (_ = _))

end Term

namespace Qualified

/-- The distinct variables of the term, then those that only constraints have. -/
def names (q : Qualified) : List String :=
  distinct (q.term.vars ++ q.constraints.toList.flatMap Term.vars)

def renumber (q : Qualified) : Qualified := q.rename (numbered q.names)

def orders : Nat → Nat
  | 0 => 1
  | n + 1 => (n + 1) * orders n

def lesser (p q : Qualified) : Qualified := if compare q p = .lt then q else p

def least? : List Qualified → Option Qualified
  | [] => none
  | q :: qs => some (qs.foldl lesser q)

/-- Passes over `n` variables meet at most as many types as there are orders of the variables. -/
def canonical (q : Qualified) : Qualified :=
  let first := q.renumber
  ((Orbit.cycle? renumber (orders q.names.length) first).bind least?).getD first

def Equivalent (p q : Qualified) : Prop := p.canonical = q.canonical

instance (p q : Qualified) : Decidable (p.Equivalent q) := inferInstanceAs (Decidable (_ = _))

end Qualified
end TypeClues
