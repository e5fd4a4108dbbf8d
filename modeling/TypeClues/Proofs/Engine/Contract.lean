import TypeClues.Proofs.Engine.Runs
import TypeClues.Proofs.Rule.Failure
import TypeClues.Rule.Statement

/-!
# What becomes of a rule that fails

A rule that fails before it has said that it is about the clue is meant to count as not applicable:
the next rule runs as if it had not been there. After that, its first failure is meant to be the
error of the clue. This is what happens, unless the rule goes on after its failure and says only
then that it is about the clue.
-/
namespace TypeClues.Engine
variable {σ κ : Type} {e m : Engine σ κ} {c : Clue σ κ} {r : Rule κ} {rs : List (Rule κ)}
  {before after : List (Call κ)} {d : Diagnostic σ}

open Workspace (FirstFailure calls)

def workspace (e : Engine σ κ) (ts : List ClueId) : Workspace σ κ :=
  .new e.policy (ts.filterMap e.at?)

/-- What is meant to become of a rule with these calls before its first failure. -/
def promised (before : List (Call κ)) (d : Diagnostic σ) : Verdict σ :=
  if before.any Call.isSatisfied then .failed d else .notApplicable d

theorem invoke_of_firstFailure {ts : List ClueId}
    (hf : FirstFailure (e.workspace ts) (calls r.script (e.workspace ts)) before d after) :
    (e.invoke r ts).1 =
      if before.any Call.isSatisfied || after.any Call.isSatisfied then .failed d
      else .notApplicable d := hf.verdict_run

/-- A failure is treated as it is meant to be exactly if the rule, should it say after it that it is
about the clue, has said so before it as well. A rule that never says so leaves everything to the
next one, and otherwise its first failure, alone, is added to the errors of the clue. -/
theorem invoke_eq_promised_iff (h : Visit e c (r :: rs) m)
    (hf : FirstFailure (m.workspace c.targets) (calls r.script (m.workspace c.targets)) before d
      after) :
    ((m.invoke r c.targets).1 = promised before d ↔
      (after.any Call.isSatisfied → before.any Call.isSatisfied)) ∧
    (before.any Call.isSatisfied ∨ after.any Call.isSatisfied → Step e (m.addErrors c.id [d])) ∧
    (¬ before.any Call.isSatisfied → ¬ after.any Call.isSatisfied →
      Visit e c rs m ∧ Step e (runRules c.id c.targets rs m).1) := by
  have hv := invoke_of_firstFailure hf
  refine ⟨?_, fun hs => ?_, fun hb ha => ?_⟩
  · rw [hv, promised]
    cases before.any Call.isSatisfied <;> cases after.any Call.isSatisfied <;> simp
  · have hfailed : (m.invoke r c.targets).1 = .failed d := by
      rw [hv, if_pos (by simpa using hs)]
    have hstep := h.step
    rwa [runRules_of_failed hfailed] at hstep
  · have hpass : Visit e c rs m := by
      apply h.pass (d := d)
      rw [hv, if_neg (by simp [hb, ha])]
    exact ⟨hpass, hpass.step⟩

def clash : Rule (Constant Unit) :=
  ⟨"clash", .ofStatements [.satisfied, .unifyType (.plain (.atom "Int")) 0,
    .unifyType (.plain (.atom "Bool")) 0, .satisfied]⟩

theorem invoke_eq_promised_clash :
    let e := (drive 3 {} [.rule clash, .clue "Hole" "a" nothing []]).1
    ∃ c rest d, Visit e c [clash] { e with pending := rest } ∧
      FirstFailure (e.workspace c.targets) (calls clash.script (e.workspace c.targets))
        [.satisfied, .unifyType (.plain (.atom "Int")) 0] d [.satisfied] ∧
      (e.invoke clash c.targets).1 = .failed d ∧
      Step e (addErrors { e with pending := rest } c.id [d]) := by
  intro e
  obtain ⟨c, rest, ht, h⟩ := e.exists_visit hole [] (by decide +kernel)
    (by decide +kernel) (by decide +kernel)
  have hfine : ((e.workspace c.targets).serveAll
      [.satisfied, .unifyType (.plain (.atom "Int")) 0]).failure = none := by
    rw [ht]
    decide +kernel
  have hfails : (((e.workspace c.targets).serveAll
      [.satisfied, .unifyType (.plain (.atom "Int")) 0]).serve
        (.unifyType (.plain (.atom "Bool")) 0)).failure.isSome := by
    rw [ht]
    decide +kernel
  obtain ⟨d, hd⟩ := Option.isSome_iff_exists.1 hfails
  have hf := Workspace.firstFailure_of_failure hfine hd [.satisfied]
  obtain ⟨hv, hstep, -⟩ := invoke_eq_promised_iff h hf
  exact ⟨c, rest, d, h, hf, hv.2 fun _ => rfl, hstep (.inl rfl)⟩

/-- A rule that is not about the clue, and says that it is only after it has said what it misses. -/
def lateSatisfied : Rule (Constant Unit) :=
  ⟨"Text", .ofStatements [.fail "not a text" [0], .satisfied]⟩

def integers : Rule (Constant Unit) :=
  ⟨"Hole", .ofStatements [.satisfied, .unifyType (.plain (.atom "Int")) 0]⟩

/-- The first failure of the first rule comes before anything else, and yet the rule does not count
as not applicable: the clue is in error, and the second rule does not make it an integer. -/
theorem invoke_ne_promised_lateSatisfied :
    let commands : List (Command String (Constant Unit)) :=
      [.rule lateSatisfied, .rule integers, .clue "Hole" "a" nothing []]
    let e := (drive 3 {} commands).1
    let e' := (drive 3 {} (commands ++ [.process])).1
    (∃ es c rest d, History {} e es ∧
      Visit e c [lateSatisfied, integers] { e with pending := rest } ∧
      FirstFailure (e.workspace c.targets) (calls lateSatisfied.script (e.workspace c.targets))
        [] d [.satisfied] ∧
      (e.invoke lateSatisfied c.targets).1 ≠ promised (κ := Constant Unit) [] d) ∧
    e'.hasError hole := by
  intro commands e e'
  obtain ⟨c, rest, ht, h⟩ := e.exists_visit hole [] (by decide +kernel)
    (by decide +kernel) (by decide +kernel)
  have hf := FirstFailure.here (w := e.workspace c.targets) (.stated "not a text" [0])
    [.satisfied]
  refine ⟨⟨_, c, rest, _, history_drive 3 {} commands, h, hf, ?_⟩, by decide +kernel⟩
  have hv := invoke_of_firstFailure (r := lateSatisfied) hf
  rw [hv]
  simp [promised, Call.isSatisfied]

end TypeClues.Engine
