/-!
# Lines

A line ends at a line feed; a carriage return right before the line feed belongs to the ending.
-/
namespace TypeClues.Text

/-- Takes one carriage return from the end. -/
def dropReturn (cs : List Char) : List Char :=
  if cs.getLast? = some '\r' then cs.dropLast else cs

def firstLine (s : String) : String :=
  if '\n' ∈ s.toList then String.ofList (dropReturn (s.toList.takeWhile (· ≠ '\n'))) else s

def joinLines (lines : List String) : String := String.intercalate "\n" lines

end TypeClues.Text
