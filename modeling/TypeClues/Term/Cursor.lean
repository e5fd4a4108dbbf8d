import TypeClues.Term.Basic

/-!
# Reading variables one at a time

A cursor is the stack of subterms still to be read, and gives the next occurrence of a variable
on demand. Reading to the end gives the occurrences of the whole term from left to right.
-/
namespace TypeClues.Term

/-- The subterms still to be read, leftmost first. -/
structure Cursor where
  stack : List Term
deriving DecidableEq

namespace Cursor

def start (t : Term) : Cursor := ⟨[t]⟩

def stackSize : List Term → Nat
  | [] => 0
  | t :: rest => t.size + stackSize rest

def weight (c : Cursor) : Nat := stackSize c.stack

def next? : Cursor → Option (String × Cursor)
  | ⟨[]⟩ => none
  | ⟨.atom _ :: rest⟩ => next? ⟨rest⟩
  | ⟨.app f x :: rest⟩ => next? ⟨f :: x :: rest⟩
  | ⟨.var v :: rest⟩ => some (v, ⟨rest⟩)
termination_by c => c.weight
decreasing_by
  all_goals simp only [weight, stackSize, Term.size]
  all_goals omega

/-- The occurrences still to come, at most `n` of them. -/
def take : (n : Nat) → Cursor → List String
  | 0, _ => []
  | n + 1, c =>
    match c.next? with
    | none => []
    | some (v, rest) => v :: rest.take n

/-- All occurrences still to come; each of them weighs something. -/
def toList (c : Cursor) : List String := c.take c.weight

end Cursor

def occurrences (t : Term) : List String := (Cursor.start t).toList

def isGround (t : Term) : Bool := (Cursor.start t).next?.isNone

end TypeClues.Term
