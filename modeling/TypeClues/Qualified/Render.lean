import TypeClues.Qualified.Basic
import TypeClues.Term.Render

/-!
# Types as text
-/
namespace TypeClues.Qualified

/-- The reading form: constraints, an arrow, the term. No constraint is written as a true one. -/
def render (q : Qualified) : String :=
  let constraints :=
    if q.constraints.toList.isEmpty then "true"
    else String.intercalate ", " (q.constraints.toList.map Term.render)
  constraints ++ " => " ++ q.term.render

def inspect (q : Qualified) : String :=
  "Type \x7b constraints: " ++ Text.bracketed (q.constraints.toList.map Term.inspect) ++
    ", term: " ++ q.term.inspect ++ " \x7d"

end TypeClues.Qualified

namespace TypeClues

/-- Marks the text of a value whose variables are placeholders. -/
def renderFree (text : String) : String := "free(" ++ text ++ ")"

end TypeClues
