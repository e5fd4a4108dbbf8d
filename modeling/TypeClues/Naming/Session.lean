import TypeClues.Naming.Scope

/-!
# Sessions of generators and scopes

A session holds any number of generators, each a handle on a supply, and scopes that draw from
them. A copied generator is a second handle on the same supply. Generators and scopes are known by
their positions.
-/
namespace TypeClues.Naming

structure Session where
  supplies : List Supply := [{}]
  /-- The supply of each generator. -/
  generators : List Nat := [0]
  /-- Each scope with its supply. -/
  scopes : List (Nat × Scope) := []
deriving DecidableEq, Inhabited

inductive Request where
  | newGenerator
  | copyGenerator (generator : Nat)
  | newScope (generator : Nat)
  | allocate (generator : Nat) (name : String)
  | allocateIn (scope : Nat) (name : String)
  | resolve (scope : Nat) (type : Qualified)
  | resolveTerm (scope : Nat) (term : Term)
deriving DecidableEq

inductive Reply where
  | position (index : Nat)
  | allocation (allocation : Allocation)
  | type (type : Qualified)
  | term (term : Term)
  /-- There is no generator or scope at that position. -/
  | missing
deriving DecidableEq

namespace Session

/-- How many allocations each generator has seen. -/
def allocated (s : Session) : List Nat :=
  s.generators.map fun k => (s.supplies.getD k {}).allocated

/-- Runs an operation of a scope, which may change the scope and its supply. -/
def withScope (s : Session) (scope : Nat) {α : Type} (encode : α → Reply)
    (act : Scope → Supply → α × Scope × Supply) : Reply × Session :=
  match s.scopes[scope]? with
  | none => (.missing, s)
  | some (k, sc) =>
    let r := act sc (s.supplies.getD k {})
    (encode r.1,
      { s with supplies := s.supplies.set k r.2.2, scopes := s.scopes.set scope (k, r.2.1) })

def run (s : Session) : Request → Reply × Session
  | .newGenerator =>
    (.position s.generators.length,
      { s with supplies := s.supplies ++ [{}], generators := s.generators ++ [s.supplies.length] })
  | .copyGenerator g =>
    match s.generators[g]? with
    | none => (.missing, s)
    | some k => (.position s.generators.length, { s with generators := s.generators ++ [k] })
  | .newScope g =>
    match s.generators[g]? with
    | none => (.missing, s)
    | some k => (.position s.scopes.length, { s with scopes := s.scopes ++ [(k, {})] })
  | .allocate g name =>
    match s.generators[g]? with
    | none => (.missing, s)
    | some k =>
      let r := (s.supplies.getD k {}).allocate name
      (.allocation r.1, { s with supplies := s.supplies.set k r.2 })
  | .allocateIn scope name => s.withScope scope .allocation (Scope.allocate name)
  | .resolve scope type => s.withScope scope .type (Scope.resolve type)
  | .resolveTerm scope term => s.withScope scope .term (Scope.resolveTerm term)

end Session
end TypeClues.Naming
