import TypeClues.Naming.Supply
import TypeClues.Qualified.Basic

/-!
# Scopes

A scope asks its supply once for each name it meets and remembers the answer. Inside the scope a
placeholder variable becomes the numbered name, so values from different scopes of one supply have
no variables in common.
-/
namespace TypeClues

/-- The allocations made so far, at most one for each name. -/
structure Scope where
  assigned : List Allocation := []
deriving DecidableEq, Inhabited

namespace Scope

def find? (s : Scope) (name : String) : Option Allocation :=
  s.assigned.find? (·.word = name)

/-- The allocation of a name, made now if this is its first use. -/
def allocate (name : String) (s : Scope) (supply : Supply) : Allocation × Scope × Supply :=
  match s.find? name with
  | some a => (a, s, supply)
  | none =>
    let r := supply.allocate name
    (r.1, ⟨r.1 :: s.assigned⟩, r.2)

def reserve : List String → Scope → Supply → Scope × Supply
  | [], s, supply => (s, supply)
  | name :: names, s, supply =>
    let r := s.allocate name supply
    reserve names r.2.1 r.2.2

def resolved (s : Scope) (v : String) : String :=
  match s.find? v with
  | some a => a.name
  | none => v

/-- The type with its placeholders replaced, in the order constraints first. -/
def resolve (q : Qualified) (s : Scope) (supply : Supply) : Qualified × Scope × Supply :=
  let r := s.reserve q.vars supply
  (q.rename r.1.resolved, r.1, r.2)

def resolveTerm (t : Term) (s : Scope) (supply : Supply) : Term × Scope × Supply :=
  let r := s.reserve t.vars supply
  (t.rename r.1.resolved, r.1, r.2)

end Scope
end TypeClues
