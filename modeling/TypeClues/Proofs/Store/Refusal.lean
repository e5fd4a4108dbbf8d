import TypeClues.Proofs.Store.Given
import TypeClues.Proofs.Store.InPlace

/-!
# Stores that refuse

The story of a store is also its flag of failure. A change of a store without a story succeeds and
tells nothing, or it mismatches and tells why. Worked out in place, a change is made of smaller ones
that ask for the flag again and may set it: none of them comes after a failure, and none fails
without a line. A store with a story refuses every change and stays as it is. So of changes asked
for one after the other the first ones succeed, and if not all of them do, the next one mismatches
and the rest is refused.
-/
namespace TypeClues.Store
variable {p : Policy} {s : Store} {r : Outcome}

/-- The story accounts for what became of a change: there is none after a success and one after a
mismatch, and the change was not refused. -/
inductive Accounted : Outcome → Prop where
  | success {s : Store} (h : s.story = []) : Accounted (.ok (), s)
  | mismatch {s : Store} (h : s.story ≠ []) : Accounted (.error .mismatch, s)

theorem accounted_fail (s : Store) (step : Step) : Accounted (s.fail step) :=
  .mismatch (by simp)

theorem Accounted.within (h : Accounted r) (step : Step) : Accounted (r.within step) := by
  cases h with
  | success h => exact .success h
  | mismatch h => exact .mismatch (by simp)

/-- The next change comes upon a store that has not failed. -/
theorem Accounted.andThen (h : Accounted r) {next : Store → Outcome}
    (hn : ∀ s : Store, s.story = [] → Accounted (next s)) : Accounted (r.andThen next) := by
  cases h with
  | success h => exact hn _ h
  | mismatch h => exact .mismatch h

/-! ## Inside a change -/

theorem accounted_eachVar {visit : String → Store → Outcome}
    (h : ∀ w s, s.story = [] → Accounted (visit w s)) (t : Term) (hs : s.story = []) :
    Accounted (eachVar visit t s) := by
  induction t generalizing s with
  | atom a => exact .success hs
  | var w => exact h w s hs
  | app f x hf hx => exact (hf hs).andThen fun s hs => hx hs

theorem accounted_occursCheckWithin (v : String) (n : Nat) (t : Term) (hs : s.story = []) :
    Accounted (occursCheckWithin v n t s) := by
  induction n generalizing t s with
  | zero =>
    refine accounted_eachVar (fun w s hs => ?_) t hs
    split
    · exact accounted_fail s _
    · exact .success hs
  | succ n ih =>
    refine accounted_eachVar (fun w s hs => ?_) t hs
    split
    · exact accounted_fail s _
    · cases s.bindings.get? w with
      | none => exact .success hs
      | some u => exact (ih u hs).within _

theorem accounted_assignInPlace (v : String) (t : Term) (hs : s.story = []) :
    Accounted (s.assignInPlace v t) := by
  have ho := accounted_occursCheckWithin v s.bindings.length (s.bindings.head t) hs
  rw [assignInPlace, occursCheck]
  split
  · exact .success hs
  · generalize occursCheckWithin v s.bindings.length (s.bindings.head t) s = r at ho
    cases ho with
    | success h => exact .success h
    | mismatch h => exact .mismatch (by simp)

/-- What is below the terms leaves a story that accounts for it, or needs more steps. -/
theorem accounted_unifyShapes {unify : Store → Term → Term → Option Outcome}
    (h : ∀ s t u r, s.story = [] → unify s t u = some r → Accounted r) (hs : s.story = [])
    {t u : Term} (hr : unifyShapes unify s t u = some r) : Accounted r := by
  have follow {v : String} {t : Term} (hr : s.unifyVarInPlace v t unify = some r) :
      Accounted r := by
    rw [unifyVarInPlace] at hr
    cases hv : s.bindings.get? v with
    | none =>
      rw [hv] at hr
      cases hr
      exact accounted_assignInPlace v t hs
    | some u =>
      rw [hv] at hr
      obtain ⟨r', hr', rfl⟩ := Option.map_eq_some_iff.1 hr
      exact (h s u t r' hs hr').within _
  cases t with
  | var v => exact follow hr
  | atom a =>
    cases u with
    | var v => exact follow hr
    | atom b =>
      cases hr
      split
      · exact .success hs
      · exact accounted_fail s _
    | app g y =>
      cases hr
      exact accounted_fail s _
  | app f x =>
    cases u with
    | var v => exact follow hr
    | atom b =>
      cases hr
      exact accounted_fail s _
    | app g y =>
      rw [unifyShapes] at hr
      cases hf : unify s f g with
      | none =>
        rw [hf] at hr
        cases hr
      | some rf =>
        have hacc := h s f g rf hs hf
        rw [hf] at hr
        cases hacc with
        | success hs' =>
          obtain ⟨rx, hx, rfl⟩ := Option.map_eq_some_iff.1 hr
          exact (h _ x y rx hs' hx).within _
        | mismatch hs' =>
          -- the arguments are left alone, or they would be refused
          cases hr
          exact .mismatch (by simp)

theorem accounted_unifyTermsWithin (n : Nat) (s : Store) (t u : Term) (r : Outcome)
    (hs : s.story = []) (hr : unifyTermsWithin n s t u = some r) : Accounted r := by
  induction n generalizing s t u r with
  | zero => cases hr
  | succ n ih =>
    rw [unifyTermsWithin, if_neg (by simp [failed, hs])] at hr
    exact accounted_unifyShapes ih hs hr

theorem accounted_unifyTermsInPlace (t u : Term) (hs : s.story = []) :
    Accounted (s.unifyTermsInPlace t u) := by
  rw [unifyTermsInPlace]
  cases hr : unifyTermsWithin (s.bindings.depth t u) s t u with
  | none => exact accounted_fail s _
  | some r => exact accounted_unifyTermsWithin _ s t u r hs hr

theorem accounted_mergeInPlace (c : Term) (kept ds : List Term) (hs : s.story = []) :
    Accounted (mergeInPlace p c kept ds s) := by
  induction ds generalizing s kept with
  | nil => exact .success hs
  | cons d ds ih =>
    rw [mergeInPlace]
    split
    · next k l _ _ =>
      split
      · -- whatever the copy tells, the store itself has not failed
        exact ih _ hs
      · refine (accounted_unifyTermsInPlace k l hs).andThen fun s hs => ?_
        exact ((accounted_unifyTermsInPlace c d hs).within _).andThen fun s hs => ih kept hs
    · split
      · exact ih kept hs
      · exact ih _ hs

theorem accounted_constrainInPlace (c : Term) (hs : s.story = []) :
    Accounted (s.constrainInPlace p c) := by
  rw [constrainInPlace, guarded_of_nil hs]
  exact accounted_mergeInPlace c [] s.constraints hs

theorem accounted_constrainAllInPlace (origin : Qualified) (cs : List Term) (hs : s.story = []) :
    Accounted (constrainAllInPlace p origin cs s) := by
  induction cs generalizing s with
  | nil => exact .success hs
  | cons c cs ih =>
    exact ((accounted_constrainInPlace c hs).within _).andThen fun s hs => ih hs

theorem accounted_unifyInPlace (a b : Qualified) (hs : s.story = []) :
    Accounted (s.unifyInPlace p a b) := by
  rw [unifyInPlace, guarded_of_nil hs]
  apply Accounted.andThen
  · apply (accounted_constrainAllInPlace a a.constraints.toList hs).andThen
    exact fun s hs => accounted_constrainAllInPlace b b.constraints.toList hs
  · exact fun s hs => (accounted_unifyTermsInPlace a.term b.term hs).within _

/-! ## Changes and runs of changes -/

def applyInPlace (p : Policy) (s : Store) : Change → Outcome
  | .terms t u => s.unifyTermsInPlace t u
  | .constraint c => s.constrainInPlace p c
  | .types a b => s.unifyInPlace p a b

theorem applyInPlace_eq (p : Policy) (s : Store) (x : Change) :
    s.applyInPlace p x = s.apply p x := by
  cases x with
  | terms t u => exact s.unifyTermsInPlace_eq t u
  | constraint c => exact constrainInPlace_eq p s c
  | types a b => exact unifyInPlace_eq p s a b

theorem accounted_applyInPlace (hs : s.story = []) (x : Change) :
    Accounted (s.applyInPlace p x) := by
  cases x with
  | terms t u => exact accounted_unifyTermsInPlace t u hs
  | constraint c => exact accounted_constrainInPlace c hs
  | types a b => exact accounted_unifyInPlace a b hs

theorem applyInPlace_of_story (hs : s.story ≠ []) (x : Change) :
    s.applyInPlace p x = (.error .poisoned, s) := by
  cases x with
  | terms t u =>
    rw [applyInPlace, unifyTermsInPlace, Bindings.depth, unifyTermsWithin_of_story hs]
    rfl
  | constraint c => exact guarded_of_story hs _
  | types a b => exact guarded_of_story hs _

theorem constraints_of_constrain_ne_ok {c : Term} (h : (s.constrain p c).1 ≠ .ok ()) :
    (s.constrain p c).2.constraints = s.constraints := by
  by_cases hs : s.story = []
  · rw [constrain, guarded_of_nil hs] at h ⊢
    cases hm : merge p c s.bindings s.constraints with
    | ok r => simp [hm] at h
    | error clash => rfl
  · rw [constrain, guarded_of_story hs]

/-- Asks for changes one after the other, whatever becomes of them. -/
def attempt (p : Policy) : List Change → Store → List (Except Refusal Unit) × Store
  | [], s => ([], s)
  | x :: xs, s =>
    let rest := attempt p xs (s.apply p x).2
    ((s.apply p x).1 :: rest.1, rest.2)

theorem attempt_of_story (hs : s.story ≠ []) (xs : List Change) :
    attempt p xs s = (List.replicate xs.length (.error .poisoned), s) := by
  induction xs with
  | nil => rfl
  | cons x xs ih =>
    have hx := applyInPlace_of_story (p := p) hs x
    rw [applyInPlace_eq] at hx
    simp [attempt, hx, ih, List.replicate_succ]

/-- The answers to so many requests of which the first `n` succeed: what comes next is a mismatch,
and all after it is refused. -/
def answers (n total : Nat) : List (Except Refusal Unit) :=
  (List.range total).map fun k =>
    if k < n then .ok () else if k = n then .error .mismatch else .error .poisoned

theorem answers_succ (n total : Nat) : answers (n + 1) (total + 1) = .ok () :: answers n total := by
  simp [answers, List.range_succ_eq_map, Function.comp_def]

theorem answers_zero (total : Nat) :
    answers 0 (total + 1) = .error .mismatch :: List.replicate total (.error .poisoned) := by
  simp [answers, List.range_succ_eq_map, Function.comp_def, List.map_const']

/-- A store stands still from its first mismatch on. -/
theorem exists_attempt_eq (hs : s.story = []) (xs : List Change) :
    ∃ n ≤ xs.length, (attempt p xs s).1 = answers n xs.length ∧
      (attempt p xs s).2 = (attempt p (xs.take (n + 1)) s).2 ∧
      ((attempt p xs s).2.story = [] ↔ n = xs.length) := by
  induction xs generalizing s with
  | nil => exact ⟨0, Nat.le_refl 0, rfl, rfl, by simpa [attempt] using hs⟩
  | cons x xs ih =>
    have hx := accounted_applyInPlace (p := p) hs x
    rw [applyInPlace_eq] at hx
    generalize hr : s.apply p x = r at hx
    cases hx with
    | success h =>
      rcases ih h with ⟨n, hn, hans, hstore, hstory⟩
      refine ⟨n + 1, Nat.succ_le_succ hn, ?_, ?_, ?_⟩
      · simp [attempt, hr, hans, answers_succ]
      · simpa [attempt, hr] using hstore
      · simpa [attempt, hr] using hstory
    | mismatch h =>
      refine ⟨0, Nat.zero_le _, ?_, ?_, ?_⟩
      · simp [attempt, hr, attempt_of_story h, answers_zero]
      · simp [attempt, hr, attempt_of_story h]
      · simp [attempt, hr, attempt_of_story h, h]

/-- The story decides what becomes of a change, on every store and so on every one that changes lead
to. The change may be worked out in place, with a question for the flag at every step into terms and
all lines written into the store; where no variable depends on itself the steps suffice. With a
story the change is refused and nothing is different afterwards. Without one it succeeds and there
is still none, or it mismatches and there is one. Unification of terms never touches the live
constraints, and a constraint that cannot be added leaves them as they were. In a run of changes on
a store without a story the first ones succeed; if there are more, the next one mismatches, and
those after it are refused by the store that the mismatch has left. -/
theorem changes_by_story (p : Policy) (s : Store) :
    (∀ x, s.applyInPlace p x = s.apply p x) ∧
    (s.Reachable p → ∀ t u, (unifyTermsWithin (s.bindings.depth t u) s t u).isSome) ∧
    (∀ x, s.story ≠ [] → s.applyInPlace p x = (.error .poisoned, s)) ∧
    (∀ x, s.story = [] →
      ((s.applyInPlace p x).1 = .ok () ∧ (s.applyInPlace p x).2.story = []) ∨
      ((s.applyInPlace p x).1 = .error .mismatch ∧ (s.applyInPlace p x).2.story ≠ [])) ∧
    (∀ t u, (s.unifyTermsInPlace t u).2.constraints = s.constraints) ∧
    (∀ c, (s.constrainInPlace p c).1 ≠ .ok () →
      (s.constrainInPlace p c).2.constraints = s.constraints) ∧
    ∀ xs, s.story = [] → ∃ n ≤ xs.length, (attempt p xs s).1 = answers n xs.length ∧
      (attempt p xs s).2 = (attempt p (xs.take (n + 1)) s).2 ∧
      ((attempt p xs s).2.story = [] ↔ n = xs.length) := by
  refine ⟨applyInPlace_eq p s, fun hr => isSome_unifyTermsWithin hr.acyclic,
    fun x hs => applyInPlace_of_story hs x, ?_, ?_, ?_, fun xs hs => exists_attempt_eq hs xs⟩
  · intro x hs
    have hx := accounted_applyInPlace (p := p) hs x
    generalize s.applyInPlace p x = r at hx
    cases hx with
    | success h => exact .inl ⟨rfl, h⟩
    | mismatch h => exact .inr ⟨rfl, h⟩
  · intro t u
    rw [unifyTermsInPlace_eq, constraints_unifyTerms]
  · intro c
    rw [constrainInPlace_eq]
    exact constraints_of_constrain_ne_ok

/-- Keys that do not match tell nothing; a constraint that has to equal another one and does not
ends the store. -/
example :
    let repr := fun t u : Term => Term.app (.app (.atom "RepresentedAs") t) u
    (attempt (.ofFinders [.head "RepresentedAs" 2 1])
      [.constraint (repr (.atom "Int") (.atom "Bit64")),
        .constraint (repr (.atom "Char") (.atom "Bit8")),
        .types (.of [repr (.var "a") (.atom "Bit8")] (.var "a")) (.plain (.atom "Int")),
        .terms (.var "b") (.var "b")] {}).1 = answers 2 4 := by decide

end TypeClues.Store
