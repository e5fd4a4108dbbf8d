/-!
# Terms

First-order terms: atoms, variables and the application of one term to one other. A term with
several arguments is a chain of applications.
-/
namespace TypeClues

inductive Term where
  | atom (name : String)
  | app (function argument : Term)
  | var (name : String)
deriving DecidableEq, Inhabited

/-- What stands for each variable. -/
abbrev Substitution := String → Term

namespace Term

def apply (head : Term) (arguments : List Term) : Term := arguments.foldl .app head

/-- The head of a chain of applications and its arguments. -/
def spine : Term → Term × List Term
  | .app f x => (f.spine.1, f.spine.2 ++ [x])
  | t => (t, [])

def vars : Term → List String
  | .atom _ => []
  | .app f x => f.vars ++ x.vars
  | .var v => [v]

def size : Term → Nat
  | .atom _ => 1
  | .app f x => f.size + x.size + 1
  | .var _ => 1

/-- Replaces every variable at once; what is put in is not looked at again. -/
def subst (θ : Substitution) : Term → Term
  | .atom a => .atom a
  | .app f x => .app (f.subst θ) (x.subst θ)
  | .var v => θ v

/-- Replacement by an action, run at the variables from left to right. -/
def substM {m : Type → Type} [Monad m] (θ : String → m Term) : Term → m Term
  | .atom a => pure (.atom a)
  | .app f x => do
    let f' ← f.substM θ
    let x' ← x.substM θ
    pure (.app f' x')
  | .var v => θ v

def rename (f : String → String) (t : Term) : Term := t.subst (fun v => .var (f v))

def isVar : Term → Bool
  | .var _ => true
  | _ => false

@[simp] theorem vars_atom (a : String) : (Term.atom a).vars = [] := rfl
@[simp] theorem vars_app (f x : Term) : (Term.app f x).vars = f.vars ++ x.vars := rfl
@[simp] theorem vars_var (v : String) : (Term.var v).vars = [v] := rfl
@[simp] theorem subst_atom (θ : Substitution) (a : String) : (Term.atom a).subst θ = .atom a := rfl
@[simp] theorem subst_app (θ : Substitution) (f x : Term) :
    (Term.app f x).subst θ = .app (f.subst θ) (x.subst θ) := rfl
@[simp] theorem subst_var (θ : Substitution) (v : String) : (Term.var v).subst θ = θ v := rfl

end Term

/-- The substitution that reads a table; the first entry for a name counts, and a variable without
an entry stays. -/
def Substitution.ofTable (table : List (String × Term)) : Substitution :=
  fun v => (table.lookup v).getD (.var v)

end TypeClues
