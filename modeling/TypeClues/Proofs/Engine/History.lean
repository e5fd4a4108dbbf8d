import TypeClues.Engine.Session
import TypeClues.Proofs.Engine.Graph
import TypeClues.Rule.Statement

/-!
# Histories

The history of an engine is all it has done since it was empty. It grows by rules, by clues and by
single steps, and the commands of a session only ever add such pieces to it.

The examples of the development are histories of holes and pins. A hole is a clue that nothing is
known about, and a pin is a clue that rules use to tell something about a hole.
-/
namespace TypeClues.Engine
variable {σ κ : Type}

/-- The engine has come from the empty one in this history. -/
inductive History (p : Policy) : Engine σ κ → List (Event σ κ) → Prop where
  | empty : History p { policy := p } []
  | rule {e : Engine σ κ} {es : List (Event σ κ)} (h : History p e es) (r : Rule κ) :
      History p (e.addRule r).1 (es ++ (e.addRule r).2)
  | clue {e : Engine σ κ} {es : List (Event σ κ)} {kind : String} {source : σ} {constant : κ}
      {dependencies : List ClueId} {r : ClueId × Engine σ κ × List (Event σ κ)}
      (h : History p e es) (ha : e.addClue kind source constant dependencies = .ok r) :
      History p r.2.1 (es ++ r.2.2)
  | step {e : Engine σ κ} {es : List (Event σ κ)} {r : Engine σ κ × List (Event σ κ)}
      (h : History p e es) (hs : e.step? = some r) : History p r.1 (es ++ r.2)
  | settled {e : Engine σ κ} {es : List (Event σ κ)} (h : History p e es) (n : Nat) :
      History p e (es ++ [.settled n])

variable {p : Policy} {e : Engine σ κ} {es : List (Event σ κ)}

theorem History.wellFormed (h : History p e es) : e.WellFormed := by
  induction h with
  | empty => exact wellFormed_empty p
  | rule _ r ih => exact ih.addRule r
  | clue _ ha ih => exact ih.addClue ha
  | step _ hs ih => exact ih.evolves (evolves_step? hs)
  | settled _ n ih => exact ih

theorem History.settle (h : History p e es) {limit n : Nat} {r : Engine σ κ × List (Event σ κ)}
    (hr : Engine.settle limit n e = some r) : History p r.1 (es ++ r.2) := by
  induction limit generalizing n e es r with
  | zero =>
    rcases settle_cases hr with ⟨-, rfl⟩ | ⟨k, s, rest, hk, -⟩
    · exact h.settled n
    · cases hk
  | succ limit ih =>
    rcases settle_cases hr with ⟨-, rfl⟩ | ⟨k, s, rest, hk, hs, hrest, rfl⟩
    · exact h.settled n
    · cases hk
      rw [← List.append_assoc]
      exact ih (h.step hs) hrest

theorem History.perform (h : History p e es) (limit : Nat) (c : Command σ κ) :
    History p (e.perform limit c).2.1 (es ++ (e.perform limit c).2.2) := by
  cases c with
  | rule r => exact h.rule r
  | clue kind source constant ds =>
    rw [Engine.perform]
    cases ha : e.addClue kind source constant ds with
    | error u => simpa using h
    | ok r => exact h.clue ha
  | process =>
    rw [Engine.perform]
    cases hr : e.process limit with
    | none => simpa using h
    | some r => exact h.settle hr
  | query id =>
    rw [Engine.perform]
    cases e.query id <;> simpa using h

/-- The engine after commands, with its history. -/
def drive (limit : Nat) (p : Policy) (cs : List (Command σ κ)) : Engine σ κ × List (Event σ κ) :=
  cs.foldl (fun s c => ((s.1.perform limit c).2.1, s.2 ++ (s.1.perform limit c).2.2))
    ({ policy := p }, [])

theorem history_drive (limit : Nat) (p : Policy) (cs : List (Command σ κ)) :
    History p (drive limit p cs).1 (drive limit p cs).2 :=
  List.foldlRecOn (motive := fun s : Engine σ κ × List (Event σ κ) => History p s.1 s.2) cs _ .empty
    fun _ h c _ => h.perform limit c

def nothing : Constant Unit := ⟨.other, ()⟩

def hole : ClueId := ⟨"Hole", 1, 1⟩

/-- The script of a rule that is about clues of one kind. -/
def about (kind : String) (body : List (Statement Unit)) : Script (Constant Unit) :=
  .ofStatements (.kindOrFail 0 kind "another kind" [] :: .satisfied :: body)

/-- What a pin depends on first is an integer. -/
def pin : Rule (Constant Unit) := ⟨"Pin", about "Pin" [.unifyType (.plain (.atom "Int")) 1]⟩

/-- A pin is an integer, and has the type of what it depends on first. -/
def pinSame : Rule (Constant Unit) :=
  ⟨"Pin", about "Pin" [.unifyType (.plain (.atom "Int")) 0, .unifyClues 0 1]⟩

/-- Every pin is faulty. -/
def stop : Rule (Constant Unit) := ⟨"Stop", about "Pin" [.fail "seen" [0]]⟩

end TypeClues.Engine
