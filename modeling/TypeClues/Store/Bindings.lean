import TypeClues.Store.Story

/-!
# Bindings

Variables bound to terms, which may mention bound variables again. The functions here follow
bindings; none follows more of them in a row than there are, which is enough when no variable
depends on itself.
-/
namespace TypeClues

/-- Bound variables with their terms, the newest first. -/
abbrev Bindings := List (String × Term)

namespace Bindings

def get? (B : Bindings) (v : String) : Option Term := B.lookup v

def bind (B : Bindings) (v : String) (t : Term) : Bindings := (v, t) :: B

/-- Follows bindings as long as the term is a bound variable, at most `n` times. -/
def headWithin (B : Bindings) : (n : Nat) → Term → Term
  | n + 1, .var v =>
    match B.get? v with
    | some t => B.headWithin n t
    | none => .var v
  | _, t => t

def head (B : Bindings) (t : Term) : Term := B.headWithin B.length t

def substituteWithin (B : Bindings) : (n : Nat) → Term → Term
  | 0, t => t
  | n + 1, t => t.subst fun v =>
    match B.get? v with
    | some u => B.substituteWithin n u
    | none => .var v

def substitute (B : Bindings) (t : Term) : Term := B.substituteWithin B.length t

/-- Whether `v` occurs in a term, itself or behind at most `n` bindings in a row. -/
def occursWithin (B : Bindings) (v : String) : (n : Nat) → Term → Bool
  | 0, t => t.vars.any (· = v)
  | n + 1, t => t.vars.any fun w =>
    w = v || match B.get? w with
      | some u => B.occursWithin v n u
      | none => false

def occurs (B : Bindings) (v : String) (t : Term) : Bool := B.occursWithin v B.length t

/-- The way to the leftmost occurrence of `v`, through at most `n` bindings in a row. -/
def occurrenceWithin? (B : Bindings) (v : String) : (n : Nat) → Term → Option (List Step)
  | 0, t => t.vars.findSome? fun w => if w = v then some [.occurrence] else none
  | n + 1, t => t.vars.findSome? fun w =>
    if w = v then some [.occurrence]
    else
      match B.get? w with
      | some u => (B.occurrenceWithin? v n u).map (· ++ [.behind w u])
      | none => none

def occurrence? (B : Bindings) (v : String) (t : Term) : Option (List Step) :=
  B.occurrenceWithin? v B.length t

end Bindings
end TypeClues
