import TypeClues.Qualified.Render

/-!
# Stories of failure

Why a unification failed, told step by step from the innermost clash outwards.
-/
namespace TypeClues

/-- One step of a story. -/
inductive Step where
  | atomsDiffer (a b : String)
  | atomMeetsApp (a : String) (t : Term)
  | appMeetsAtom (t : Term) (b : String)
  /-- The variable looked for was found. -/
  | occurrence
  /-- It was found behind a bound variable. -/
  | behind (v : String) (bound : Term)
  | occursIn (v : String) (t : Term)
  | unifyingTerms (t u : Term)
  | unifyingTypes (p q : Qualified)
  | addingConstraint (c : Term) (origin : Qualified)
  | mergingConstraints (new old : Term)
deriving DecidableEq

namespace Step

def message : Step → String
  | .atomsDiffer a b => "mismatching atoms: " ++ a ++ " and " ++ b
  | .atomMeetsApp a t => "could not match atom " ++ a ++ " with application " ++ t.render
  | .appMeetsAtom t b => "could not match application " ++ t.render ++ " with atom " ++ b
  | .occurrence => "occurs check failed"
  | .behind v t => "when resolving @" ++ v ++ " to " ++ t.render
  | .occursIn v t => "@" ++ v ++ " occurs in " ++ t.render ++ ", so it can't match with it"
  | .unifyingTerms t u => "while unifying term " ++ t.render ++ " with " ++ u.render
  | .unifyingTypes p q => "while unifying type " ++ p.render ++ " with " ++ q.render
  | .addingConstraint c q => "while adding constraint " ++ c.render ++ " from " ++ q.render
  | .mergingConstraints c d =>
    "while unifying new constraint " ++ c.render ++
      " with existing matching-fundep constraint " ++ d.render

end Step
end TypeClues
