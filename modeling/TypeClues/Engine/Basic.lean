import TypeClues.Canonical
import TypeClues.Engine.Event

/-!
# The engine

An engine holds a growing graph of clues and runs rules on those that are pending, the oldest
first. A clue is pending when it is new and whenever the type of one of its dependencies has
changed. A clue in error is never looked at again, and errors pass on to the clues that depend on
it when those are looked at.
-/
namespace TypeClues

structure Engine (σ κ : Type) where
  policy : Policy := {}
  rules : List (Rule κ) := []
  supply : Supply := {}
  /-- The clues in the order of their creation. -/
  clues : List (Clue σ κ) := []
  pending : OrderedSet ClueId := ∅

namespace Engine
variable {σ κ : Type}

/-- The clue at the place of an id, whoever issued the id. -/
def at? (e : Engine σ κ) (id : ClueId) : Option (Clue σ κ) := e.clues[id.slot]?

def find? (e : Engine σ κ) (id : ClueId) : Option (Clue σ κ) := (e.at? id).filter (·.id = id)

def query (e : Engine σ κ) (id : ClueId) : Except UnknownClue (Clue σ κ) :=
  match e.find? id with
  | some c => .ok c
  | none => .error ⟨id⟩

def modify (e : Engine σ κ) (id : ClueId) (f : Clue σ κ → Clue σ κ) : Engine σ κ :=
  { e with clues := e.clues.modify id.slot f }

def addRule (e : Engine σ κ) (r : Rule κ) : Engine σ κ × List (Event σ κ) :=
  ({ e with rules := e.rules ++ [r] }, [.ruleAdded r.name (e.rules.length + 1)])

def addDependent (e : Engine σ κ) (id dependent : ClueId) : Engine σ κ :=
  e.modify id fun c => { c with dependents := c.dependents.insert dependent }

/-- Adds a clue, which is pending from now on; refused as a whole if a dependency is unknown. -/
def addClue (e : Engine σ κ) (kind : String) (source : σ) (constant : κ)
    (dependencies : List ClueId) : Except UnknownClue (ClueId × Engine σ κ × List (Event σ κ)) :=
  match dependencies.find? fun d => (e.find? d).isNone with
  | some d => .error ⟨d⟩
  | none =>
    let id := (e.supply.allocate kind).1
    let linked := dependencies.foldl (fun e d => e.addDependent d id) e
    .ok (id,
      { linked with
        supply := (e.supply.allocate kind).2
        clues := linked.clues ++ [{ id, source, constant, dependencies }]
        pending := e.pending.insert id },
      [.clueAdded id dependencies.length])

/-- Stores a better type for a clue, and wakes its dependents if that changes anything. -/
def refine (e : Engine σ κ) (id : ClueId) (q : Qualified) : Engine σ κ × List (Event σ κ) :=
  match e.at? id with
  | none => (e, [])
  | some c =>
    if c.type.Equivalent q then (e, [])
    else
      let new := q.canonical
      ({ e.modify id (fun c => { c with type := new }) with
          pending := e.pending.union c.dependents },
        [.refined id c.type new])

def refineAll : List (ClueId × Qualified) → Engine σ κ → Engine σ κ × List (Event σ κ)
  | [], e => (e, [])
  | (id, q) :: rest, e =>
    let first := e.refine id q
    let others := refineAll rest first.1
    (others.1, first.2 ++ others.2)

def invoke (e : Engine σ κ) (r : Rule κ) (targets : List ClueId) :
    Verdict σ × List (Event σ κ) :=
  let w := Workspace.run r.script (.new e.policy (targets.filterMap e.at?))
  (w.verdict, w.seen.map .observed)

def addErrors (e : Engine σ κ) (id : ClueId) (errors : List (Diagnostic σ)) : Engine σ κ :=
  e.modify id fun c => { c with errors := c.errors ++ errors }

def runRules (id : ClueId) (targets : List ClueId) :
    List (Rule κ) → Engine σ κ → Engine σ κ × List (Event σ κ)
  | [], e => (e, [])
  | r :: rest, e =>
    let invoked := e.invoke r targets
    match invoked.1 with
    | .notApplicable d =>
      let others := runRules id targets rest e
      (others.1, invoked.2 ++ .notApplicable r.name id d :: others.2)
    | .failed d => (e.addErrors id [d], invoked.2 ++ [.ruleFailed r.name id d])
    | .refined types =>
      let refined := refineAll (targets.zip types) e
      let others := runRules id targets rest refined.1
      (others.1, invoked.2 ++ refined.2 ++ others.2)

def hasError (e : Engine σ κ) (id : ClueId) : Bool := (e.at? id).any Clue.hasError

/-- Looks at one clue: passes errors of its dependencies on, or runs the rules. -/
def examine (e : Engine σ κ) (id : ClueId) : Engine σ κ × List (Event σ κ) :=
  match e.at? id with
  | none => (e, [])
  | some c =>
    if c.hasError then (e, [])
    else
      match c.dependencies.filter e.hasError with
      | [] => runRules id (id :: c.dependencies) e.rules e
      | errored => (e.addErrors id (errored.map .inherited), [.inherited id errored.length])

/-- Takes the oldest pending clue and looks at it; `none` if nothing is pending. -/
def step? (e : Engine σ κ) : Option (Engine σ κ × List (Event σ κ)) :=
  match e.pending.popLeast? with
  | none => none
  | some (id, pending) =>
    let r := examine { e with pending } id
    some (r.1, .dequeued id :: r.2)

/-- Steps until nothing is pending; `none` if that takes more than `limit` of them. Rules may keep
each other busy for ever. -/
def settle : (limit steps : Nat) → Engine σ κ → Option (Engine σ κ × List (Event σ κ))
  | limit, steps, e =>
    match e.step? with
    | none => some (e, [.settled steps])
    | some r =>
      match limit with
      | 0 => none
      | limit + 1 => (settle limit (steps + 1) r.1).map fun rest => (rest.1, r.2 ++ rest.2)

def process (limit : Nat) (e : Engine σ κ) : Option (Engine σ κ × List (Event σ κ)) :=
  settle limit 0 e

end Engine
end TypeClues
