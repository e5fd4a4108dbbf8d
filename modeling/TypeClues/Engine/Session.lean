import TypeClues.Engine.Basic

/-!
# Sessions

A session is an engine driven by commands, with a logger that writes what the engine does.
-/
namespace TypeClues.Engine
variable {σ κ : Type}

inductive Command (σ κ : Type) where
  | rule (rule : Rule κ)
  | clue (kind : String) (source : σ) (constant : κ) (dependencies : List ClueId)
  | process
  | query (id : ClueId)

inductive Reply (σ κ : Type) where
  | done
  | created (id : ClueId)
  | unknown (error : UnknownClue)
  /-- All clues, after nothing is pending any more. -/
  | settled (clues : List (Clue σ κ))
  /-- The limit on steps was reached. -/
  | unsettled
  | found (clue : Clue σ κ)

/-- The reply to a command, the engine after it and what the engine did. -/
def perform (limit : Nat) (e : Engine σ κ) :
    Command σ κ → Reply σ κ × Engine σ κ × List (Event σ κ)
  | .rule r => (.done, e.addRule r)
  | .clue kind source constant dependencies =>
    match e.addClue kind source constant dependencies with
    | .error u => (.unknown u, e, [])
    | .ok r => (.created r.1, r.2)
  | .process =>
    match e.process limit with
    | none => (.unsettled, e, [])
    | some r => (.settled r.1.clues, r)
  | .query id =>
    match e.query id with
    | .error u => (.unknown u, e, [])
    | .ok c => (.found c, e, [])

/-- What a session shows after a command. -/
structure Turn (σ κ : Type) where
  reply : Reply σ κ
  clues : Nat
  pending : Nat
  seen : List (Observation κ)
  /-- The log records that were written. -/
  written : List Record

def turn (limit : Nat) (logger : Logger) (e : Engine σ κ) (c : Command σ κ) :
    Turn σ κ × Engine σ κ :=
  let r := e.perform limit c
  ({ reply := r.1
     clues := r.2.1.clues.length
     pending := r.2.1.pending.size
     seen := r.2.2.filterMap Event.observation?
     written := logger.written (r.2.2.filterMap Event.record?) }, r.2.1)

def session (limit : Nat) (logger : Logger) : Engine σ κ → List (Command σ κ) → List (Turn σ κ)
  | _, [] => []
  | e, c :: cs =>
    let r := e.turn limit logger c
    r.1 :: session limit logger r.2 cs

end TypeClues.Engine
