import TypeClues.Clue
import TypeClues.Naming.Scope
import TypeClues.Rule.Script
import TypeClues.Store.Basic
import TypeClues.Text.Blank
import TypeClues.Text.Lines

/-!
# Running a script

A script runs in a workspace of its own. The types of the clues and the types that the rule writes
are resolved in separate scopes, so that equal placeholder names in different places mean
different variables. The first failure counts and later ones are ignored. A workspace without
failure ends with a type for every clue.
-/
namespace TypeClues

/-- What a failure says before the story of the store. -/
inductive Complaint where
  | stated (message : String)
  | noClue (index : Nat)
  | typeClash (index : Nat) (type : Qualified)
  | clueClash (left right : Nat)
  | notInstantiable (index : Nat)
deriving DecidableEq

def Complaint.message : Complaint → String
  | .stated message => message
  | .noClue i => "no clue at index " ++ toString i
  | .typeClash i q => "could not match " ++ toString i ++ " with inference rule type " ++ q.render
  | .clueClash i j => "could not match " ++ toString i ++ " with " ++ toString j
  | .notInstantiable i => "could not instantiate " ++ toString i

inductive Verdict (σ : Type) where
  /-- It failed before it was about the clue. -/
  | notApplicable (error : Diagnostic σ)
  | failed (error : Diagnostic σ)
  /-- A type for every clue. -/
  | refined (types : List Qualified)
deriving DecidableEq

structure Workspace (σ κ : Type) where
  policy : Policy
  /-- The clue under evaluation and its dependencies. -/
  targets : List (Clue σ κ)
  /-- One scope for each target. -/
  scopes : List Scope
  supply : Supply := {}
  ruleScope : Scope := {}
  store : Store := {}
  satisfied : Bool := false
  failure : Option (Diagnostic σ) := none
  seen : List (Observation κ) := []

namespace Workspace
variable {σ κ : Type}

def new (policy : Policy) (targets : List (Clue σ κ)) : Workspace σ κ :=
  { policy, targets, scopes := targets.map fun _ => {} }

/-- The complaint, an empty line and the story, without blanks at the ends. -/
def report (w : Workspace σ κ) (c : Complaint) : String :=
  Text.trimBlank (c.message ++ "\n\n" ++ Text.joinLines (w.store.story.map Step.message))

def fail (w : Workspace σ κ) (c : Complaint) (blame : List Nat) : Workspace σ κ :=
  match w.failure with
  | some _ => w
  | none =>
    { w with failure := some (.reported (w.report c)
        ((blame.filterMap fun i => w.targets[i]?).map Clue.source)) }

def resolveType (w : Workspace σ κ) (q : Qualified) : Qualified × Workspace σ κ :=
  let r := w.ruleScope.resolve q w.supply
  (r.1, { w with ruleScope := r.2.1, supply := r.2.2 })

/-- The type of a clue, in the scope of its index. -/
def resolveTarget (w : Workspace σ κ) (i : Nat) (c : Clue σ κ) : Qualified × Workspace σ κ :=
  let r := (w.scopes.getD i {}).resolve c.type w.supply
  (r.1, { w with scopes := w.scopes.set i r.2.1, supply := r.2.2 })

def unify (w : Workspace σ κ) (a b : Qualified) (c : Complaint) (blame : List Nat) :
    Workspace σ κ :=
  let r := w.store.unify w.policy a b
  match r.1 with
  | .ok () => { w with store := r.2 }
  | .error _ => fail { w with store := r.2 } c blame

def unifyType (w : Workspace σ κ) (q : Qualified) (i : Nat) : Workspace σ κ :=
  match w.failure, w.targets[i]? with
  | some _, _ => w
  | none, none => w.fail (.noClue i) []
  | none, some c =>
    let a := w.resolveType q
    let b := a.2.resolveTarget i c
    b.2.unify a.1 b.1 (.typeClash i q) [i]

def unifyClues (w : Workspace σ κ) (i j : Nat) : Workspace σ κ :=
  match w.failure, w.targets[i]?, w.targets[j]? with
  | some _, _, _ => w
  | none, none, _ => w.fail (.noClue i) []
  | none, some _, none => w.fail (.noClue j) []
  | none, some c, some d =>
    let a := w.resolveTarget i c
    let b := a.2.resolveTarget j d
    b.2.unify a.1 b.1 (.clueClash i j) [i, j]

def instantiateTarget (w : Workspace σ κ) (i : Nat) :
    Except Store.Refusal Qualified × Workspace σ κ :=
  match w.targets[i]? with
  | none => (.error .mismatch, w)
  | some c =>
    let r := w.resolveTarget i c
    (r.2.store.instantiate r.1, r.2)

/-- The type of a clue as a rule may ask for it: nothing is known after a failure. -/
def instantiate (w : Workspace σ κ) (i : Nat) : Option Qualified × Workspace σ κ :=
  match w.failure with
  | some _ => (none, w)
  | none =>
    let r := w.instantiateTarget i
    (r.1.toOption, r.2)

def run : Script κ → Workspace σ κ → Workspace σ κ
  | .done, w => w
  | .arity next, w => run (next w.targets.length) w
  | .kind i next, w => run (next (w.targets[i]?.map Clue.kind)) w
  | .constant i next, w => run (next (w.targets[i]?.map Clue.constant)) w
  | .instantiate i next, w => run (next (w.instantiate i).1) (w.instantiate i).2
  | .satisfied next, w => run next { w with satisfied := true }
  | .fail message blame next, w => run next (w.fail (.stated message) blame)
  | .unifyType q i next, w => run next (w.unifyType q i)
  | .unifyClues i j next, w => run next (w.unifyClues i j)
  | .note o next, w => run next { w with seen := w.seen ++ [o] }

def instantiateEach : List Nat → Workspace σ κ → Except (Diagnostic σ) (List Qualified)
  | [], _ => .ok []
  | i :: is, w =>
    let r := w.instantiateTarget i
    match r.1 with
    | .ok q => (instantiateEach is r.2).map (q :: ·)
    | .error _ =>
      .error (.reported (r.2.report (.notInstantiable i)) (w.targets[i]?.toList.map Clue.source))

def verdict (w : Workspace σ κ) : Verdict σ :=
  match w.failure with
  | some d => if w.satisfied then .failed d else .notApplicable d
  | none =>
    match instantiateEach (List.range w.targets.length) w with
    | .ok types => .refined types
    | .error d => .failed d

end Workspace
end TypeClues
