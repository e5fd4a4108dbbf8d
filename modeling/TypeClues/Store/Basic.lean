import TypeClues.Policy.Basic
import TypeClues.Store.Unify

/-!
# Stores

A store collects bindings and constraints. Constraints with keys that can be made equal are
merged, so that at most one constraint for each key stays alive. The first failure ends a store:
its story stays, and from then on the store refuses every change and every answer but one.
-/
namespace TypeClues

structure Store where
  bindings : Bindings := []
  /-- The live constraints, in the order in which they came. -/
  constraints : List Term := []
  /-- What went wrong, innermost step first; empty as long as nothing has. -/
  story : List Step := []
deriving DecidableEq, Inhabited

namespace Store

inductive Refusal where
  | mismatch
  | poisoned
deriving DecidableEq

def Refusal.message : Refusal → String
  | .mismatch => "unification failed"
  | .poisoned => "this Vars failed and is in an invalid state"

abbrev Outcome := Except Refusal Unit × Store

namespace Outcome

def andThen (r : Outcome) (next : Store → Outcome) : Outcome :=
  match r with
  | (.ok (), s) => next s
  | r => r

def within (step : Step) (r : Outcome) : Outcome :=
  match r with
  | (.error .mismatch, s) => (.error .mismatch, { s with story := s.story ++ [step] })
  | r => r

end Outcome

def failed (s : Store) : Bool := !s.story.isEmpty

/-- A store that has failed refuses, and stays as it is. -/
def guarded (s : Store) (change : Outcome) : Outcome :=
  if s.failed then (.error .poisoned, s) else change

def unifyTerms (s : Store) (t u : Term) : Outcome :=
  s.guarded <|
    match s.bindings.unify t u with
    | .ok B => (.ok (), { s with bindings := B })
    | .error c => (.error .mismatch, { s with bindings := c.reached, story := c.story })

/-- Goes through live constraints with a new one. A constraint with a key that unifies with the
new key is unified with the new constraint and taken out; without keys on both sides only a
constraint that already equals the new one is taken out. -/
def merge (p : Policy) (c : Term) : Bindings → List Term → Except Clash (Bindings × List Term)
  | B, [] => .ok (B, [])
  | B, d :: ds =>
    let keep := fun B => (merge p c B ds).map fun r => (r.1, d :: r.2)
    match p.key? c, p.key? d with
    | some k, some l =>
      match B.unify k l with
      | .error _ => keep B
      | .ok B =>
        match B.unify c d with
        | .ok B => merge p c B ds
        | .error clash => .error (clash.within (.mergingConstraints c d))
    | _, _ => if B.substitute d = B.substitute c then merge p c B ds else keep B

def constrain (p : Policy) (s : Store) (c : Term) : Outcome :=
  s.guarded <|
    match merge p c s.bindings s.constraints with
    | .ok (B, kept) => (.ok (), { s with bindings := B, constraints := kept ++ [c] })
    | .error clash =>
      (.error .mismatch, { s with bindings := clash.reached, story := clash.story })

def constrainAll (p : Policy) (origin : Qualified) : List Term → Store → Outcome
  | [], s => (.ok (), s)
  | c :: cs, s =>
    ((s.constrain p c).within (.addingConstraint c origin)).andThen (constrainAll p origin cs)

def unify (p : Policy) (s : Store) (a b : Qualified) : Outcome :=
  s.guarded <|
    ((constrainAll p a a.constraints.toList s).andThen
      (constrainAll p b b.constraints.toList)).andThen fun s =>
        (s.unifyTerms a.term b.term).within (.unifyingTypes a b)

/-- Whether `v` occurs in a term once bindings are followed; also a failed store answers. -/
def occurs (s : Store) (v : String) (t : Term) : Bool := s.bindings.occurs v t

def answer {α : Type} (s : Store) (a : α) : Except Refusal α :=
  if s.failed then .error .poisoned else .ok a

def substitute (s : Store) (t : Term) : Except Refusal Term := s.answer (s.bindings.substitute t)

/-- A term under those of the constraints that share a variable with it. -/
def qualified (constraints : List Term) (t : Term) : Qualified :=
  .of (constraints.filter fun c => c.vars.any (· ∈ t.vars)) t

def qualify (s : Store) (t : Term) : Except Refusal Qualified :=
  s.answer (qualified (s.constraints.map s.bindings.substitute) (s.bindings.substitute t))

/-- The term of a type in full, under the live and the own constraints that concern it. -/
def instantiate (s : Store) (q : Qualified) : Except Refusal Qualified :=
  s.answer (qualified ((s.constraints ++ q.constraints.toList).map s.bindings.substitute)
    (s.bindings.substitute q.term))

end Store
end TypeClues
