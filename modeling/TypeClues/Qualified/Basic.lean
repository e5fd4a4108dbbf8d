import TypeClues.OrderedSet
import TypeClues.Term.Order

/-!
# Qualified types

A type is a term under a set of constraints, which are terms too. Constraints are a set: neither
their order nor repetition matters when a type is built.
-/
namespace TypeClues

structure Qualified where
  constraints : OrderedSet Term
  term : Term
deriving DecidableEq, Inhabited

namespace Qualified

/-- The type with these constraints, in any order and possibly repeated. -/
def of (constraints : List Term) (term : Term) : Qualified := ⟨.ofList constraints, term⟩

def plain (term : Term) : Qualified := ⟨∅, term⟩

/-- The type that every type is an instance of. -/
def mostGeneral : Qualified := plain (.var "any")

/-- Constraints decide first, as lists in ascending order; then the terms. -/
instance : Ord Qualified :=
  ⟨compareLex (compareOn fun q => q.constraints.toList) (compareOn Qualified.term)⟩

instance : Std.TransOrd Qualified :=
  inferInstanceAs (Std.TransCmp
    (compareLex (compareOn fun q : Qualified => q.constraints.toList) (compareOn Qualified.term)))

/-- The constraints in ascending order, then the term. -/
def terms (q : Qualified) : List Term := q.constraints.toList ++ [q.term]

def vars (q : Qualified) : List String := q.terms.flatMap Term.vars

/-- Changes every term of a type; constraints that become equal fall together. -/
def mapTerms (f : Term → Term) (q : Qualified) : Qualified :=
  of (q.constraints.toList.map f) (f q.term)

/-- Changes every term by an action, run in the order of `terms`. -/
def mapTermsM {m : Type → Type} [Monad m] (f : Term → m Term) (q : Qualified) : m Qualified := do
  let constraints ← q.constraints.toList.mapM f
  let term ← f q.term
  pure (of constraints term)

def subst (θ : Substitution) (q : Qualified) : Qualified := q.mapTerms (Term.subst θ)

def rename (f : String → String) (q : Qualified) : Qualified := q.mapTerms (Term.rename f)

@[simp] theorem term_of (cs : List Term) (t : Term) : (of cs t).term = t := rfl

@[simp] theorem mem_constraints_of {c : Term} {cs : List Term} {t : Term} :
    c ∈ (of cs t).constraints ↔ c ∈ cs := OrderedSet.mem_ofList

end Qualified
end TypeClues
