import TypeClues.Proofs.Store.Reachable

/-!
# Changes worked out in place

A change of a store is worked out on its bindings, and its story is put together from what the
clash reports. The same work can be done on the store itself: each step writes its line of the story
into the store as it comes back, every step into terms asks first whether the store has failed, and
the keys of constraints are tried out on a copy that is thrown away. Both ways come to the same. So
none of the questions inside a change ever finds a store that has failed.
-/
namespace TypeClues.Store

def fail (s : Store) (step : Step) : Outcome :=
  (.error .mismatch, { s with story := s.story ++ [step] })

/-- Goes through the variables of a term from left to right, up to the first failure. -/
def eachVar (visit : String → Store → Outcome) : Term → Store → Outcome
  | .atom _, s => (.ok (), s)
  | .app f x, s => (eachVar visit f s).andThen (eachVar visit x)
  | .var v, s => visit v s

/-- Fails where `v` occurs, behind at most `n` bindings in a row. -/
def occursCheckWithin (v : String) : (n : Nat) → Term → Store → Outcome
  | 0 => eachVar fun w s => if w = v then s.fail .occurrence else (.ok (), s)
  | n + 1 => eachVar fun w s =>
    if w = v then s.fail .occurrence
    else
      match s.bindings.get? w with
      | some u => (occursCheckWithin v n u s).within (.behind w u)
      | none => (.ok (), s)

def occursCheck (s : Store) (v : String) (t : Term) : Outcome :=
  occursCheckWithin v s.bindings.length t s

def assignInPlace (s : Store) (v : String) (t : Term) : Outcome :=
  let t := s.bindings.head t
  if t = .var v then (.ok (), s)
  else
    match s.occursCheck v t with
    | (.ok (), s) => (.ok (), { s with bindings := s.bindings.bind v t })
    | (.error x, s) =>
      (.error x, { s with story := s.story ++ [.occursIn v t, .unifyingTerms (.var v) t] })

def unifyVarInPlace (s : Store) (v : String) (t : Term)
    (unify : Store → Term → Term → Option Outcome) : Option Outcome :=
  match s.bindings.get? v with
  | some u => (unify s u t).map (Outcome.within (.unifyingTerms (.var v) t))
  | none => some (s.assignInPlace v t)

/-- Unifies two terms by their shapes, and what is below them by `unify`. -/
def unifyShapes (unify : Store → Term → Term → Option Outcome) (s : Store) :
    Term → Term → Option Outcome
  | .var v, u => s.unifyVarInPlace v u unify
  | t, .var v => s.unifyVarInPlace v t unify
  | .atom a, .atom b => some (if a = b then (.ok (), s) else s.fail (.atomsDiffer a b))
  | .atom a, .app g y => some (s.fail (.atomMeetsApp a (.app g y)))
  | .app f x, .atom b => some (s.fail (.appMeetsAtom (.app f x) b))
  | .app f x, .app g y =>
    let outer := Outcome.within (.unifyingTerms (.app f x) (.app g y))
    match (unify s f g).map outer with
    | some (.ok (), s) => (unify s x y).map outer
    | result => result

/-- Unification with at most `n` nested steps, each of which refuses a store that has failed. -/
def unifyTermsWithin : (n : Nat) → Store → Term → Term → Option Outcome
  | 0, _, _, _ => none
  | n + 1, s, t, u =>
    if s.failed then some (.error .poisoned, s) else unifyShapes (unifyTermsWithin n) s t u

def unifyTermsInPlace (s : Store) (t u : Term) : Outcome :=
  (unifyTermsWithin (s.bindings.depth t u) s t u).getD (s.fail (.unifyingTerms t u))

/-- Goes through live constraints with a new one. Those that stay come behind `kept`, and the store
gets its new constraints only in the end. -/
def mergeInPlace (p : Policy) (c : Term) : (kept : List Term) → List Term → Store → Outcome
  | kept, [], s => (.ok (), { s with constraints := kept ++ [c] })
  | kept, d :: ds, s =>
    match p.key? c, p.key? d with
    | some k, some l =>
      -- the keys are tried out on a copy, of which only the answer is left
      match (s.unifyTermsInPlace k l).1 with
      | .error _ => mergeInPlace p c (kept ++ [d]) ds s
      | .ok () =>
        (s.unifyTermsInPlace k l).andThen fun s =>
          ((s.unifyTermsInPlace c d).within (.mergingConstraints c d)).andThen
            (mergeInPlace p c kept ds)
    | _, _ =>
      if s.bindings.substitute d = s.bindings.substitute c then mergeInPlace p c kept ds s
      else mergeInPlace p c (kept ++ [d]) ds s

def constrainInPlace (p : Policy) (s : Store) (c : Term) : Outcome :=
  s.guarded (mergeInPlace p c [] s.constraints s)

def constrainAllInPlace (p : Policy) (origin : Qualified) : List Term → Store → Outcome
  | [], s => (.ok (), s)
  | c :: cs, s =>
    ((s.constrainInPlace p c).within (.addingConstraint c origin)).andThen
      (constrainAllInPlace p origin cs)

def unifyInPlace (p : Policy) (s : Store) (a b : Qualified) : Outcome :=
  s.guarded <|
    ((constrainAllInPlace p a a.constraints.toList s).andThen
      (constrainAllInPlace p b b.constraints.toList)).andThen fun s =>
        (s.unifyTermsInPlace a.term b.term).within (.unifyingTypes a b)

variable {s : Store}

theorem failed_iff : s.failed = true ↔ s.story ≠ [] := by simp [failed]

theorem guarded_of_story (h : s.story ≠ []) (change : Outcome) :
    s.guarded change = (.error .poisoned, s) := if_pos (failed_iff.2 h)

theorem guarded_of_nil (h : s.story = []) (change : Outcome) : s.guarded change = change := by
  simp [guarded, failed, h]

/-- The store after what became of its bindings. -/
def settled (s : Store) : Except Clash Bindings → Outcome
  | .ok B => (.ok (), { s with bindings := B })
  | .error c => (.error .mismatch, { s with bindings := c.reached, story := c.story })

theorem within_settled (r : Except Clash Bindings) (step : Step) :
    (s.settled r).within step = s.settled (r.mapError (Clash.within step)) := by cases r <;> rfl

theorem unifyTerms_of_nil (h : s.story = []) (t u : Term) :
    s.unifyTerms t u = s.settled (s.bindings.unify t u) := by
  rw [unifyTerms, guarded_of_nil h]
  cases s.bindings.unify t u <;> rfl

def searched (s : Store) : Option (List Step) → Outcome
  | none => (.ok (), s)
  | some story => (.error .mismatch, { s with story := story })

theorem eachVar_eq {visit : String → Store → Outcome} {find : String → Option (List Step)}
    (h : ∀ w, visit w s = s.searched (find w)) (t : Term) :
    eachVar visit t s = s.searched (t.vars.findSome? find) := by
  induction t with
  | atom a => rfl
  | var w => simp [eachVar, h]
  | app f x hf hx =>
    rw [eachVar, hf, Term.vars_app, List.findSome?_append]
    cases f.vars.findSome? find with
    | none => exact hx
    | some story => rfl

section Unfailed
variable (hs : s.story = [])
include hs

theorem fail_of_nil (step : Step) : s.fail step = s.settled (.error ⟨s.bindings, [step]⟩) := by
  rw [fail, hs]
  rfl

theorem occursCheckWithin_eq (v : String) (n : Nat) (t : Term) :
    occursCheckWithin v n t s = s.searched (s.bindings.occurrenceWithin? v n t) := by
  have here : s.fail .occurrence = s.searched (some [.occurrence]) := by
    rw [fail, hs]
    rfl
  induction n generalizing t with
  | zero =>
    apply eachVar_eq
    intro w
    split
    · exact here
    · rfl
  | succ n ih =>
    apply eachVar_eq
    intro w
    split
    · exact here
    · cases s.bindings.get? w with
      | none => rfl
      | some u =>
        simp only [ih]
        cases s.bindings.occurrenceWithin? v n u <;> rfl

theorem assignInPlace_eq (v : String) (t : Term) :
    s.assignInPlace v t = s.settled (s.bindings.assign v t) := by
  rw [assignInPlace, Bindings.assign]
  by_cases hv : s.bindings.head t = .var v
  · simp only [hv, if_true]
    rfl
  · simp only [hv, if_false, occursCheck, occursCheckWithin_eq hs]
    rw [← Bindings.occurrence?]
    cases s.bindings.occurrence? v (s.bindings.head t) <;> rfl

theorem unifyShapes_eq {n : Nat} {unify : Store → Term → Term → Option Outcome}
    (h : ∀ B t u, unify { s with bindings := B } t u =
      (Bindings.unifyWithin n B t u).map s.settled) (t u : Term) :
    unifyShapes unify s t u = (Bindings.unifyWithin (n + 1) s.bindings t u).map s.settled := by
  have hu : ∀ t u, unify s t u = (Bindings.unifyWithin n s.bindings t u).map s.settled :=
    h s.bindings
  have follow (v : String) (t : Term) : s.unifyVarInPlace v t unify =
      (s.bindings.unifyVar v t (Bindings.unifyWithin n s.bindings)).map s.settled := by
    rw [unifyVarInPlace, Bindings.unifyVar]
    cases s.bindings.get? v with
    | none => simp [assignInPlace_eq hs]
    | some u => simp [hu, Function.comp_def, within_settled]
  cases t with
  | var v => exact follow v u
  | atom a =>
    cases u with
    | var v => exact follow v (.atom a)
    | atom b =>
      by_cases hab : a = b
      · simp [unifyShapes, Bindings.unifyWithin, hab, settled]
      · simp [unifyShapes, Bindings.unifyWithin, hab, fail_of_nil hs]
    | app g y => simp [unifyShapes, Bindings.unifyWithin, fail_of_nil hs]
  | app f x =>
    cases u with
    | var v => exact follow v (.app f x)
    | atom b => simp [unifyShapes, Bindings.unifyWithin, fail_of_nil hs]
    | app g y =>
      rw [unifyShapes, Bindings.unifyWithin, hu]
      cases Bindings.unifyWithin n s.bindings f g with
      | none => rfl
      | some r =>
        cases r with
        | error c => rfl
        | ok B =>
          -- the arguments are unified on the same store under more bindings
          have hx := h B x y
          simp only [Option.map_some, settled, Outcome.within, hx, Option.map_map]
          congr 1
          funext r
          exact within_settled r _

theorem unifyTermsWithin_eq (n : Nat) (t u : Term) :
    unifyTermsWithin n s t u = (Bindings.unifyWithin n s.bindings t u).map s.settled := by
  induction n generalizing s t u with
  | zero => rfl
  | succ n ih =>
    rw [unifyTermsWithin, if_neg (by simp [failed, hs])]
    exact unifyShapes_eq hs (fun B t u => ih (s := { s with bindings := B }) hs t u) t u

end Unfailed

theorem unifyTermsWithin_of_story (hs : s.story ≠ []) (n : Nat) (t u : Term) :
    unifyTermsWithin (n + 1) s t u = some (.error .poisoned, s) := if_pos (failed_iff.2 hs)

theorem unifyTermsInPlace_eq (s : Store) (t u : Term) :
    s.unifyTermsInPlace t u = s.unifyTerms t u := by
  by_cases hs : s.story = []
  · rw [unifyTermsInPlace, unifyTerms_of_nil hs, unifyTermsWithin_eq hs, fail_of_nil hs,
      Bindings.unify]
    cases Bindings.unifyWithin (s.bindings.depth t u) s.bindings t u <;> rfl
  · rw [unifyTerms, guarded_of_story hs, unifyTermsInPlace, Bindings.depth,
      unifyTermsWithin_of_story hs]
    rfl

/-- The steps suffice, so that the story is that of the innermost failure. -/
theorem isSome_unifyTermsWithin (h : s.bindings.Acyclic) (t u : Term) :
    (unifyTermsWithin (s.bindings.depth t u) s t u).isSome := by
  by_cases hs : s.story = []
  · rw [unifyTermsWithin_eq hs, Option.isSome_map]
    exact Bindings.isSome_unifyWithin_depth h t u
  · rw [Bindings.depth, unifyTermsWithin_of_story hs]
    rfl

/-- The store after merging a constraint, with those that have come before. -/
def mergedInto (s : Store) (kept : List Term) (c : Term) :
    Except Clash (Bindings × List Term) → Outcome
  | .ok (B, rest) => (.ok (), { s with bindings := B, constraints := kept ++ rest ++ [c] })
  | .error clash => (.error .mismatch, { s with bindings := clash.reached, story := clash.story })

theorem mergedInto_keep (s : Store) (kept : List Term) (c d : Term)
    (r : Except Clash (Bindings × List Term)) :
    s.mergedInto kept c (r.map fun r => (r.1, d :: r.2)) = s.mergedInto (kept ++ [d]) c r := by
  cases r with
  | error clash => rfl
  | ok r => simp [mergedInto, Except.map]

theorem mergeInPlace_eq (p : Policy) (c : Term) (kept ds : List Term) (hs : s.story = []) :
    mergeInPlace p c kept ds s = s.mergedInto kept c (merge p c s.bindings ds) := by
  induction ds generalizing s kept with
  | nil => simp [mergeInPlace, merge, mergedInto]
  | cons d ds ih =>
    have hkeep : mergeInPlace p c (kept ++ [d]) ds s = s.mergedInto kept c
        ((merge p c s.bindings ds).map fun r => (r.1, d :: r.2)) := by
      rw [mergedInto_keep]
      exact ih (kept ++ [d]) hs
    have hkeyless : (if s.bindings.substitute d = s.bindings.substitute c
          then mergeInPlace p c kept ds s else mergeInPlace p c (kept ++ [d]) ds s) =
        s.mergedInto kept c (if s.bindings.substitute d = s.bindings.substitute c
          then merge p c s.bindings ds
          else (merge p c s.bindings ds).map fun r => (r.1, d :: r.2)) := by
      split
      · exact ih kept hs
      · exact hkeep
    rw [mergeInPlace, merge]
    cases p.key? c with
    | none => exact hkeyless
    | some k =>
      cases p.key? d with
      | none => exact hkeyless
      | some l =>
        simp only [unifyTermsInPlace_eq, unifyTerms_of_nil hs]
        cases s.bindings.unify k l with
        | error clash => exact hkeep
        | ok B =>
          simp only [settled, Outcome.andThen]
          rw [unifyTerms_of_nil (s := { s with bindings := B }) hs]
          cases B.unify c d with
          | error clash => rfl
          | ok B' => exact ih kept (s := { s with bindings := B' }) hs

theorem constrainInPlace_eq (p : Policy) (s : Store) (c : Term) :
    s.constrainInPlace p c = s.constrain p c := by
  by_cases hs : s.story = []
  · rw [constrainInPlace, constrain, guarded_of_nil hs, guarded_of_nil hs,
      mergeInPlace_eq p c _ _ hs]
    cases merge p c s.bindings s.constraints <;> rfl
  · rw [constrainInPlace, constrain, guarded_of_story hs, guarded_of_story hs]

theorem constrainAllInPlace_eq (p : Policy) (origin : Qualified) (cs : List Term) (s : Store) :
    constrainAllInPlace p origin cs s = constrainAll p origin cs s := by
  induction cs generalizing s with
  | nil => rfl
  | cons c cs ih =>
    rw [constrainAllInPlace, constrainAll, constrainInPlace_eq]
    congr 1
    funext s
    exact ih s

theorem unifyInPlace_eq (p : Policy) (s : Store) (a b : Qualified) :
    s.unifyInPlace p a b = s.unify p a b := by
  have hall (q : Qualified) : constrainAllInPlace p q q.constraints.toList =
      constrainAll p q q.constraints.toList :=
    funext (constrainAllInPlace_eq p q q.constraints.toList)
  simp only [unifyInPlace, unify, hall, unifyTermsInPlace_eq]

end TypeClues.Store
