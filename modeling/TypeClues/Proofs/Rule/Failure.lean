import TypeClues.Proofs.Rule.Calls

/-!
# The first failure of a rule

A call fails if it says so, if it names a clue that is not there, or if it asks for types to be the
same that are not. The first failure of a script stays, with the words and the sources of its
moment. Whether the rule was about the clue at all is asked for only when the script has ended, so
it counts no less if it is said after the failure.
-/
namespace TypeClues

def Call.isSatisfied {κ : Type} : Call κ → Bool
  | .satisfied => true
  | _ => false

namespace Workspace
variable {σ κ : Type} {w : Workspace σ κ} {call : Call κ} {cs before after : List (Call κ)}
  {d : Diagnostic σ}

def diagnostic (w : Workspace σ κ) (c : Complaint) (blame : List Nat) : Diagnostic σ :=
  .reported (w.report c) ((blame.filterMap fun i => w.targets[i]?).map Clue.source)

/-- Two resolved types cannot be made the same; the failure tells how far the attempt came. -/
inductive Clashes (w : Workspace σ κ) (a b : Qualified) (c : Complaint) (blame : List Nat) :
    Diagnostic σ → Prop where
  | intro {x : Store.Refusal} (h : (w.store.unify w.policy a b).1 = .error x) :
      Clashes w a b c blame
        (diagnostic { w with store := (w.store.unify w.policy a b).2 } c blame)

/-- The call fails in a workspace. -/
inductive Raises (w : Workspace σ κ) : Call κ → Diagnostic σ → Prop where
  | stated (message : String) (blame : List Nat) :
      Raises w (.fail message blame) (w.diagnostic (.stated message) blame)
  | noClue {q : Qualified} {i : Nat} (hi : w.targets[i]? = none) :
      Raises w (.unifyType q i) (w.diagnostic (.noClue i) [])
  | noLeft {i j : Nat} (hi : w.targets[i]? = none) :
      Raises w (.unifyClues i j) (w.diagnostic (.noClue i) [])
  | noRight {i j : Nat} {c : Clue σ κ} (hi : w.targets[i]? = some c) (hj : w.targets[j]? = none) :
      Raises w (.unifyClues i j) (w.diagnostic (.noClue j) [])
  | typeClash {q : Qualified} {i : Nat} {c : Clue σ κ} {d : Diagnostic σ}
      (hi : w.targets[i]? = some c)
      (h : ((w.resolveType q).2.resolveTarget i c).2.Clashes (w.resolveType q).1
        ((w.resolveType q).2.resolveTarget i c).1 (.typeClash i q) [i] d) :
      Raises w (.unifyType q i) d
  | clueClash {i j : Nat} {b c : Clue σ κ} {d : Diagnostic σ}
      (hi : w.targets[i]? = some b) (hj : w.targets[j]? = some c)
      (h : ((w.resolveTarget i b).2.resolveTarget j c).2.Clashes (w.resolveTarget i b).1
        ((w.resolveTarget i b).2.resolveTarget j c).1 (.clueClash i j) [i, j] d) :
      Raises w (.unifyClues i j) d

theorem failure_fail (hf : w.failure = none) (c : Complaint) (blame : List Nat) :
    (w.fail c blame).failure = some (w.diagnostic c blame) := by
  rw [fail, hf]
  rfl

theorem failure_unify (hf : w.failure = none) (a b : Qualified) (c : Complaint) (blame : List Nat) :
    (w.unify a b c blame).failure = some d ↔ w.Clashes a b c blame d := by
  rw [unify]
  cases hu : (w.store.unify w.policy a b).1 with
  | ok u =>
    refine iff_of_false (by simp [hf]) ?_
    rintro ⟨h⟩
    rw [hu] at h
    cases h
  | error x =>
    have hfail := failure_fail (w := { w with store := (w.store.unify w.policy a b).2 }) hf c blame
    simp only [hfail, Option.some.injEq]
    constructor
    · rintro rfl
      exact .intro hu
    · rintro ⟨-⟩
      rfl

theorem failure_instantiate (i : Nat) : (w.instantiate i).2.failure = w.failure := by
  rw [instantiate]
  cases hf : w.failure with
  | some d => exact hf
  | none =>
    rw [instantiateTarget]
    cases w.targets[i]? with
    | none => exact hf
    | some c => exact hf

theorem failure_unifyType (hf : w.failure = none) (q : Qualified) (i : Nat) :
    (w.unifyType q i).failure = some d ↔ w.Raises (.unifyType q i) d := by
  rw [unifyType, hf]
  cases hi : w.targets[i]? with
  | none =>
    simp only [failure_fail hf, Option.some.injEq]
    constructor
    · rintro rfl
      exact .noClue hi
    · intro h
      cases h with
      | noClue => rfl
      | typeClash hc => simp [hi] at hc
  | some c =>
    simp only [failure_unify (w := ((w.resolveType q).2.resolveTarget i c).2) hf]
    constructor
    · exact .typeClash hi
    · intro h
      cases h with
      | noClue hn => simp [hi] at hn
      | typeClash hc h =>
        obtain rfl : c = _ := Option.some.inj (hi.symm.trans hc)
        exact h

theorem failure_unifyClues (hf : w.failure = none) (i j : Nat) :
    (w.unifyClues i j).failure = some d ↔ w.Raises (.unifyClues i j) d := by
  rw [unifyClues, hf]
  cases hi : w.targets[i]? with
  | none =>
    simp only [failure_fail hf, Option.some.injEq]
    constructor
    · rintro rfl
      exact .noLeft hi
    · intro h
      cases h with
      | noLeft => rfl
      | noRight hb => simp [hi] at hb
      | clueClash hb => simp [hi] at hb
  | some b =>
    cases hj : w.targets[j]? with
    | none =>
      simp only [failure_fail hf, Option.some.injEq]
      constructor
      · rintro rfl
        exact .noRight hi hj
      · intro h
        cases h with
        | noLeft hb => simp [hi] at hb
        | noRight => rfl
        | clueClash _ hc => simp [hj] at hc
    | some c =>
      simp only [failure_unify (w := ((w.resolveTarget i b).2.resolveTarget j c).2) hf]
      constructor
      · exact .clueClash hi hj
      · intro h
        cases h with
        | noLeft hb => simp [hi] at hb
        | noRight _ hc => simp [hj] at hc
        | clueClash hb hc h =>
          obtain rfl : b = _ := Option.some.inj (hi.symm.trans hb)
          obtain rfl : c = _ := Option.some.inj (hj.symm.trans hc)
          exact h

theorem failure_serve (hf : w.failure = none) (call : Call κ) :
    (w.serve call).failure = some d ↔ w.Raises call d := by
  have hquiet : (w.serve call).failure = w.failure → (∀ d, ¬ w.Raises call d) →
      ((w.serve call).failure = some d ↔ w.Raises call d) := by
    intro hs hr
    exact iff_of_false (by simp [hs, hf]) (hr d)
  cases call with
  | arity => exact hquiet rfl fun d h => by cases h
  | kind i => exact hquiet rfl fun d h => by cases h
  | constant i => exact hquiet rfl fun d h => by cases h
  | instantiate i => exact hquiet (failure_instantiate i) fun d h => by cases h
  | satisfied => exact hquiet rfl fun d h => by cases h
  | fail message blame =>
    simp only [serve, failure_fail hf, Option.some.injEq]
    constructor
    · rintro rfl
      exact .stated message blame
    · rintro ⟨⟩
      rfl
  | unifyType q i => exact failure_unifyType hf q i
  | unifyClues i j => exact failure_unifyClues hf i j
  | note o => exact hquiet rfl fun d h => by cases h

theorem failure_serve_of_some (hf : w.failure = some d) (call : Call κ) :
    (w.serve call).failure = some d := by
  cases call with
  | arity => exact hf
  | kind i => exact hf
  | constant i => exact hf
  | instantiate i => rw [serve, failure_instantiate, hf]
  | satisfied => exact hf
  | fail message blame => rw [serve, fail, hf]; exact hf
  | unifyType q i => rw [serve, unifyType, hf]; exact hf
  | unifyClues i j => rw [serve, unifyClues, hf]; exact hf
  | note o => exact hf

theorem failure_serveAll_of_some (hf : w.failure = some d) (cs : List (Call κ)) :
    (w.serveAll cs).failure = some d := by
  induction cs generalizing w with
  | nil => exact hf
  | cons c cs ih => exact ih (failure_serve_of_some hf c)

theorem satisfied_fail (c : Complaint) (blame : List Nat) :
    (w.fail c blame).satisfied = w.satisfied := by
  rw [fail]
  split <;> rfl

theorem satisfied_unify (a b : Qualified) (c : Complaint) (blame : List Nat) :
    (w.unify a b c blame).satisfied = w.satisfied := by
  rw [unify]
  cases (w.store.unify w.policy a b).1 with
  | ok u => rfl
  | error x => exact satisfied_fail c blame

theorem satisfied_instantiate (i : Nat) : (w.instantiate i).2.satisfied = w.satisfied := by
  rw [instantiate]
  cases w.failure with
  | some d => rfl
  | none =>
    rw [instantiateTarget]
    cases w.targets[i]? <;> rfl

theorem satisfied_serve (call : Call κ) :
    (w.serve call).satisfied = (w.satisfied || call.isSatisfied) := by
  cases call with
  | satisfied => simp [serve, Call.isSatisfied]
  | arity => simp [serve, Call.isSatisfied]
  | kind i => simp [serve, Call.isSatisfied]
  | constant i => simp [serve, Call.isSatisfied]
  | instantiate i => simp [serve, satisfied_instantiate, Call.isSatisfied]
  | fail message blame => simp [serve, satisfied_fail, Call.isSatisfied]
  | unifyType q i =>
    simp only [serve, unifyType, Call.isSatisfied, Bool.or_false]
    split
    · rfl
    · exact satisfied_fail _ _
    · exact satisfied_unify _ _ _ _
  | unifyClues i j =>
    simp only [serve, unifyClues, Call.isSatisfied, Bool.or_false]
    split
    · rfl
    · exact satisfied_fail _ _
    · exact satisfied_fail _ _
    · exact satisfied_unify _ _ _ _
  | note o => simp [serve, Call.isSatisfied]

theorem satisfied_serveAll (cs : List (Call κ)) :
    (w.serveAll cs).satisfied = (w.satisfied || cs.any Call.isSatisfied) := by
  induction cs generalizing w with
  | nil => simp
  | cons c cs ih => rw [serveAll_cons, ih, satisfied_serve, List.any_cons, Bool.or_assoc]

/-- Of these calls, those before a failure, the failure and those after it: no call before it
fails. -/
inductive FirstFailure : Workspace σ κ → List (Call κ) → List (Call κ) → Diagnostic σ →
    List (Call κ) → Prop where
  | here {w : Workspace σ κ} {c : Call κ} {d : Diagnostic σ} (h : w.Raises c d)
      (after : List (Call κ)) : FirstFailure w (c :: after) [] d after
  | later {w : Workspace σ κ} {c : Call κ} {cs before after : List (Call κ)} {d : Diagnostic σ}
      (hc : ∀ d, ¬ w.Raises c d) (h : FirstFailure (w.serve c) cs before d after) :
      FirstFailure w (c :: cs) (c :: before) d after

theorem FirstFailure.failure_serveAll (h : FirstFailure w cs before d after)
    (hf : w.failure = none) : (w.serveAll cs).failure = some d := by
  induction h with
  | here h after => exact failure_serveAll_of_some ((failure_serve hf _).2 h) after
  | later hc _ ih =>
    apply ih
    rw [Option.eq_none_iff_forall_ne_some]
    intro d hd
    exact hc d ((failure_serve hf _).1 hd)

theorem failure_of_serveAll (h : (w.serveAll cs).failure = none) : w.failure = none := by
  cases hf : w.failure with
  | none => rfl
  | some d =>
    rw [failure_serveAll_of_some hf] at h
    cases h

/-- The first failure comes up where there was none. -/
theorem firstFailure_of_failure (hf : (w.serveAll before).failure = none)
    (hd : ((w.serveAll before).serve call).failure = some d) (after : List (Call κ)) :
    FirstFailure w (before ++ call :: after) before d after := by
  induction before generalizing w with
  | nil => exact .here ((failure_serve hf call).1 hd) after
  | cons c before ih =>
    have hc : (w.serve c).failure = none := failure_of_serveAll hf
    refine .later (fun x hx => ?_) (ih hf hd)
    rw [← failure_serve (failure_of_serveAll hf), hc] at hx
    cases hx

theorem Raises.isSatisfied (h : w.Raises call d) : call.isSatisfied = false := by
  cases h <;> rfl

theorem FirstFailure.any_isSatisfied (h : FirstFailure w cs before d after) :
    cs.any Call.isSatisfied = (before.any Call.isSatisfied || after.any Call.isSatisfied) := by
  induction h with
  | here h after => simp [h.isSatisfied]
  | later _ _ ih => rw [List.any_cons, ih, List.any_cons, Bool.or_assoc]

/-- A failed script counts as not applicable only if nowhere in it, not even after the failure, it
says that it is about the clue. -/
theorem FirstFailure.verdict_run {p : Policy} {ts : List (Clue σ κ)} {s : Script κ}
    (h : FirstFailure (new p ts) (calls s (new p ts)) before d after) :
    (run s (new p ts)).verdict =
      if before.any Call.isSatisfied || after.any Call.isSatisfied then .failed d
      else .notApplicable d := by
  have hf := h.failure_serveAll rfl
  have hs := satisfied_serveAll (w := new p ts) (calls s (new p ts))
  rw [h.any_isSatisfied] at hs
  rw [run_eq_serveAll, verdict, hf]
  simp only [hs]
  rfl

theorem Raises.exists_reported (h : w.Raises call d) :
    ∃ message culpable, d = .reported message culpable := by
  cases h with
  | stated => exact ⟨_, _, rfl⟩
  | noClue => exact ⟨_, _, rfl⟩
  | noLeft => exact ⟨_, _, rfl⟩
  | noRight => exact ⟨_, _, rfl⟩
  | typeClash _ h =>
    obtain ⟨-⟩ := h
    exact ⟨_, _, rfl⟩
  | clueClash _ _ h =>
    obtain ⟨-⟩ := h
    exact ⟨_, _, rfl⟩

theorem exists_reported_of_failure {s : Script κ} (hw : w.failure = none)
    (hf : (run s w).failure = some d) : ∃ message culpable, d = .reported message culpable := by
  have hrun : ∀ d, (run s w).failure = some d → ∃ message culpable, d = .reported message culpable := by
    apply run_of_serve (P := fun w =>
      ∀ d, w.failure = some d → ∃ message culpable, d = .reported message culpable)
    · intro v call hv d hd
      cases hvf : v.failure with
      | none => exact ((failure_serve hvf call).1 hd).exists_reported
      | some x =>
        rw [failure_serve_of_some hvf] at hd
        exact hv d (hvf.trans hd)
    · simp [hw]
  exact hrun d hf

theorem exists_reported_of_instantiateEach {is : List Nat} (h : instantiateEach is w = .error d) :
    ∃ message culpable, d = .reported message culpable := by
  induction is generalizing w with
  | nil => cases h
  | cons i is ih =>
    rw [instantiateEach] at h
    cases hi : (w.instantiateTarget i).1 with
    | ok q =>
      simp only [hi] at h
      cases hr : instantiateEach is (w.instantiateTarget i).2 with
      | ok types =>
        rw [hr] at h
        cases h
      | error x =>
        rw [hr] at h
        cases h
        exact ih hr
    | error x =>
      simp only [hi] at h
      cases h
      exact ⟨_, _, rfl⟩

/-- The error of a rule that fails is stated in words. -/
theorem exists_reported_of_failed {p : Policy} {ts : List (Clue σ κ)} {s : Script κ}
    (h : (run s (new p ts)).verdict = .failed d) :
    ∃ message culpable, d = .reported message culpable := by
  rw [verdict] at h
  cases hf : (run s (new p ts)).failure with
  | some x =>
    simp only [hf] at h
    split at h
    · cases h
      exact exists_reported_of_failure rfl hf
    · cases h
  | none =>
    simp only [hf] at h
    split at h
    · cases h
    · rename_i x hx
      cases h
      exact exists_reported_of_instantiateEach hx

end Workspace
end TypeClues
