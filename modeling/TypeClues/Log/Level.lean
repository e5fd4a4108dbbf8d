import TypeClues.Text.Blank

/-!
# Log levels
-/
namespace TypeClues

/-- From the gravest to the most talkative. -/
inductive Level where
  | error
  | warn
  | info
  | debug
  | trace
deriving DecidableEq, Inhabited

namespace Level

def rank : Level → Nat
  | .error => 0
  | .warn => 1
  | .info => 2
  | .debug => 3
  | .trace => 4

def all : List Level := [.error, .warn, .info, .debug, .trace]

def ofRank? (n : Nat) : Option Level := all[n]?

instance : LE Level := ⟨fun a b => a.rank ≤ b.rank⟩

instance (a b : Level) : Decidable (a ≤ b) := inferInstanceAs (Decidable (a.rank ≤ b.rank))

def name : Level → String
  | .error => "ERROR"
  | .warn => "WARN"
  | .info => "INFO"
  | .debug => "DEBUG"
  | .trace => "TRACE"

def inspect : Level → String
  | .error => "Error"
  | .warn => "Warn"
  | .info => "Info"
  | .debug => "Debug"
  | .trace => "Trace"

/-- The number of the terminal colour. -/
def colour : Level → Nat
  | .error => 31
  | .warn => 33
  | .info => 32
  | .debug => 36
  | .trace => 35

/-- The full upper-case form of a letter where that is plain ASCII; any other character stays, and
occurs in no level name. -/
def upper (c : Char) : List Char :=
  match c with
  | 'ß' => ['S', 'S']
  | 'ı' => ['I']
  | 'ſ' => ['S']
  | 'ﬀ' => ['F', 'F']
  | 'ﬁ' => ['F', 'I']
  | 'ﬂ' => ['F', 'L']
  | 'ﬃ' => ['F', 'F', 'I']
  | 'ﬄ' => ['F', 'F', 'L']
  | 'ﬅ' => ['S', 'T']
  | 'ﬆ' => ['S', 'T']
  | c => [c.toUpper]

def named? (name : String) : Option Level :=
  match name with
  | "ERROR" => some .error
  | "WARN" => some .warn
  | "WARNING" => some .warn
  | "INFO" => some .info
  | "DEBUG" => some .debug
  | "TRACE" => some .trace
  | _ => none

structure Invalid where
  text : String
deriving DecidableEq

def Invalid.message (e : Invalid) : String := "Invalid log level: " ++ e.text

/-- Reads a level name; case and blanks around it do not matter. -/
def parse (text : String) : Except Invalid Level :=
  match named? (String.ofList ((Text.trimBlank text).toList.flatMap upper)) with
  | some level => .ok level
  | none => .error ⟨text⟩

end Level
end TypeClues
