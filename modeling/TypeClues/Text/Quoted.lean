/-!
# Quoted text

A text between double quotes on one line: quotes, backslashes and control characters are
escaped, everything else stands for itself.
-/
namespace TypeClues.Text

/-- The escape of one character inside quotes. -/
def escape (c : Char) : List Char :=
  if c = '"' then ['\\', '"']
  else if c = '\\' then ['\\', '\\']
  else if c = '\x00' then ['\\', '0']
  else if c = '\t' then ['\\', 't']
  else if c = '\n' then ['\\', 'n']
  else if c = '\r' then ['\\', 'r']
  else if c.toNat < 32 ∨ c.toNat = 127 then
    ['\\', 'u', '\x7b'] ++ Nat.toDigits 16 c.toNat ++ ['\x7d']
  else [c]

def quoted (s : String) : String := String.ofList ('"' :: (s.toList.flatMap escape ++ ['"']))

/-- Items between square brackets, divided by commas. -/
def bracketed (items : List String) : String := "[" ++ String.intercalate ", " items ++ "]"

end TypeClues.Text
