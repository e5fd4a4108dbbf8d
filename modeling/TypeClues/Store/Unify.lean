import TypeClues.Store.Bindings

/-!
# Unification of terms

Unification extends bindings until two terms are equal under them. It goes from left to right,
binds the variable of the left term where both are variables, and refuses to bind a variable to a
term in which it occurs. Bindings made before a clash are reported with it.
-/
namespace TypeClues

structure Clash where
  reached : Bindings
  story : List Step
deriving DecidableEq

namespace Clash

def within (step : Step) (c : Clash) : Clash := { c with story := c.story ++ [step] }

end Clash

namespace Bindings

def assign (B : Bindings) (v : String) (t : Term) : Except Clash Bindings :=
  let t := B.head t
  if t = .var v then .ok B
  else
    match B.occurrence? v t with
    | some story => .error ⟨B, story ++ [.occursIn v t, .unifyingTerms (.var v) t]⟩
    | none => .ok (B.bind v t)

/-- A variable against a term. What `v` is bound to is left to `unify`. -/
def unifyVar (B : Bindings) (v : String) (t : Term)
    (unify : Term → Term → Option (Except Clash Bindings)) : Option (Except Clash Bindings) :=
  match B.get? v with
  | some u => (unify u t).map (·.mapError (Clash.within (.unifyingTerms (.var v) t)))
  | none => some (B.assign v t)

/-- Unification with at most `n` nested steps; `none` if they do not suffice. -/
def unifyWithin : (n : Nat) → Bindings → Term → Term → Option (Except Clash Bindings)
  | 0, _, _, _ => none
  | n + 1, B, .var v, u => B.unifyVar v u (unifyWithin n B)
  | n + 1, B, t, .var v => B.unifyVar v t (unifyWithin n B)
  | _ + 1, B, .atom a, .atom b =>
    some (if a = b then .ok B else .error ⟨B, [.atomsDiffer a b]⟩)
  | _ + 1, B, .atom a, .app g y => some (.error ⟨B, [.atomMeetsApp a (.app g y)]⟩)
  | _ + 1, B, .app f x, .atom b => some (.error ⟨B, [.appMeetsAtom (.app f x) b]⟩)
  | n + 1, B, .app f x, .app g y =>
    let outer := Clash.within (.unifyingTerms (.app f x) (.app g y))
    match unifyWithin n B f g with
    | some (.ok B) => (unifyWithin n B x y).map (·.mapError outer)
    | result => result.map (·.mapError outer)

def weight : Bindings → Nat
  | [] => 0
  | b :: B => b.2.size + 1 + weight B

/-- How deep unification can nest as long as no variable depends on itself. On the way down each
side passes each variable at most once, and what a variable is bound to is part of a term in
play. -/
def depth (B : Bindings) (t u : Term) : Nat :=
  let total := B.weight + t.size + u.size
  2 * total * (total + 1) + total + 1

/-- Unification in full. What `depth` does not suffice for counts as a clash. -/
def unify (B : Bindings) (t u : Term) : Except Clash Bindings :=
  (unifyWithin (B.depth t u) B t u).getD (.error ⟨B, [.unifyingTerms t u]⟩)

end Bindings
end TypeClues
