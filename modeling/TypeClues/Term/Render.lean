import TypeClues.Term.Basic
import TypeClues.Text.Quoted

/-!
# Terms as text

The reading form (`List (@a)`) and the constructor form, which shows every node and quotes names.
-/
namespace TypeClues

def inspectName (name : String) : String := "Atom(" ++ Text.quoted name ++ ")"

namespace Term

/-- The reading form: an argument stands in parentheses, a variable after an at sign. -/
def render : Term → String
  | .atom a => a
  | .app f x => f.render ++ " (" ++ x.render ++ ")"
  | .var v => "@" ++ v

def inspect : Term → String
  | .atom a => "Atom(" ++ inspectName a ++ ")"
  | .app f x => "Apply(" ++ f.inspect ++ ", " ++ x.inspect ++ ")"
  | .var v => "Var(" ++ inspectName v ++ ")"

end Term
end TypeClues
