import TypeClues.Log.Level

/-!
# Logging

A logger writes the records that are at least as grave as its threshold.
-/
namespace TypeClues

structure Record where
  level : Level
  target : String
  message : String
deriving DecidableEq

/-- One line, with the level in colour. -/
def Record.render (r : Record) : String :=
  "\x1b[" ++ toString r.level.colour ++ "m[" ++ r.level.name ++ "]\x1b[0m " ++ r.target ++ ": " ++
    r.message ++ "\n"

structure Logger where
  threshold : Level := .warn
deriving DecidableEq, Inhabited

namespace Logger

def enabled (l : Logger) (level : Level) : Bool := level ≤ l.threshold

def written (l : Logger) (records : List Record) : List Record :=
  records.filter fun r => l.enabled r.level

def write (l : Logger) (records : List Record) : String :=
  String.join ((l.written records).map Record.render)

def setNamed (l : Logger) (text : String) : Except Level.Invalid Logger :=
  (Level.parse text).map fun threshold => { l with threshold }

/-- The text of a setting; bytes that are no text count as no setting. -/
def settingOfBytes (bytes : ByteArray) : Option String := String.fromUTF8? bytes

/-- Takes the threshold from a setting. Without a setting the logger stays as it is. -/
def configure (l : Logger) (setting : Option String) :
    Except Level.Invalid (Option Level × Logger) :=
  match setting with
  | none => .ok (none, l)
  | some text => (Level.parse text).map fun level => (some level, { l with threshold := level })

end Logger
end TypeClues
