import TypeClues.Proofs.Engine.Runs
import TypeClues.Rule.Statement

/-!
# Clues in error

Rules run on clues without errors only, and they change nothing but the types of their targets and
the errors of the clue under evaluation. So a clue in error keeps its type and its errors, whatever
is added and however long the engine runs.
-/
namespace TypeClues.Engine
variable {σ κ : Type} {e e' m : Engine σ κ} {c : Clue σ κ} {rs : List (Rule κ)}

theorem at?_addErrors_of_ne {id j : ClueId} (ds : List (Diagnostic σ)) (h : id.slot ≠ j.slot) :
    (e.addErrors id ds).at? j = e.at? j := by
  rw [at?_addErrors, if_neg h]

theorem candidatesAt_eq_nil {ts : List ClueId} {j : ClueId} (h : ∀ t ∈ ts, t.slot ≠ j.slot)
    (types : List Qualified) : candidatesAt (ts.zip types) j = [] := by
  rw [List.eq_nil_iff_forall_not_mem]
  intro q hq
  obtain ⟨x, hx, hs, -⟩ := mem_candidatesAt.1 hq
  exact h x.1 (List.of_mem_zip hx).1 hs

theorem Visit.slot_ne (h : Visit e c rs m) {j : ClueId} (hj : e.hasError j) {t : ClueId}
    (ht : t ∈ c.targets) : t.slot ≠ j.slot := by
  intro hs
  apply h.not_hasError ht
  rwa [h.hasError, Engine.hasError, Engine.at?, hs]

theorem Visit.at?_of_hasError (h : Visit e c rs m) {j : ClueId} (hj : e.hasError j) :
    m.at? j = e.at? j := by
  induction h with
  | start hp hc hn hd => rfl
  | pass _ _ ih => exact ih
  | store h _ ih =>
    rw [at?_refineAll, candidatesAt_eq_nil (fun t => h.slot_ne hj), ih]
    simp

theorem Look.at?_of_hasError (h : Look e c e') {j : ClueId} (hj : e.hasError j) :
    e'.at? j = e.at? j := by
  cases h with
  | skip hp hc hn => rfl
  | inherit hp hc hn hd =>
    have hs : c.id.slot ≠ j.slot := by
      intro hs
      rw [hasError, at?, ← hs, ← at?, hc] at hj
      exact hn hj
    exact at?_addErrors_of_ne _ hs
  | finish h => exact h.at?_of_hasError hj
  | fail h hv =>
    rw [at?_addErrors_of_ne _ (h.slot_ne hj List.mem_cons_self), h.at?_of_hasError hj]

/-- If the first clue is in error, the second has the same type and the same errors. -/
def Freezes (c c' : Clue σ κ) : Prop := c.hasError → c'.type = c.type ∧ c'.errors = c.errors

theorem WellFormed.freezes_leads (he : e.WellFormed) (h : Leads e e') : Carries Freezes e e' := by
  refine he.carries_leads ?_ ?_ ?_ ?_ h
  · exact fun c _ => ⟨rfl, rfl⟩
  · intro a b c hab hbc ha
    obtain ⟨ht, herr⟩ := hab ha
    have hb : b.hasError := by rwa [Clue.hasError, herr]
    exact ⟨(hbc hb).1.trans ht, (hbc hb).2.trans herr⟩
  · exact fun new c _ => ⟨Clue.type_link new c, Clue.errors_link new c⟩
  · intro e c e' _ hl j d d' hd hd' herr
    have hj : e.hasError j := by rwa [hasError, hd]
    rw [hl.at?_of_hasError hj, hd] at hd'
    cases hd'
    exact ⟨rfl, rfl⟩

theorem leads_of_le {s : Nat → Engine σ κ} (hs : ∀ n, Leads (s n) (s (n + 1))) {m n : Nat}
    (h : m ≤ n) : Leads (s m) (s n) :=
  Nat.le_induction .refl (fun k _ ih => ih.trans (hs k)) n h

/-- The errors of a clue change at most once. -/
theorem WellFormed.exists_errors_eq {s : Nat → Engine σ κ} (hw : (s 0).WellFormed)
    (hs : ∀ n, Leads (s n) (s (n + 1))) (id : ClueId) : ∃ n ds,
      ∀ k c, (s k).find? id = some c → c.errors = if k < n then [] else ds := by
  have hnil : ∀ c : Clue σ κ, ¬ c.hasError → c.errors = [] := by simp [Clue.hasError]
  by_cases h : ∃ n c, (s n).find? id = some c ∧ c.hasError
  · classical
    -- the change comes at the first engine of the run in which the clue is in error
    obtain ⟨c, hc, herr⟩ := Nat.find_spec h
    refine ⟨Nat.find h, c.errors, fun k d hd => ?_⟩
    split
    · rename_i hk
      exact hnil d fun hd' => Nat.find_min h hk ⟨d, hd, hd'⟩
    · rename_i hk
      have hl := leads_of_le hs (Nat.not_lt.1 hk)
      obtain ⟨d', hd', hf⟩ := (hw.leads (leads_of_le hs (Nat.zero_le _))).freezes_leads hl id c hc
      rw [hd] at hd'
      cases hd'
      exact (hf herr).2
  · refine ⟨0, [], fun k d hd => ?_⟩
    rw [ite_self]
    exact hnil d fun hd' => h ⟨k, d, hd, hd'⟩

/-- A clue in error keeps its type and its errors along every run, so that in any run the errors of
a clue are empty up to some point and the same from there on. -/
theorem frozen_of_hasError {p : Policy} {es : List (Event σ κ)} (hh : History p e es) :
    (∀ e', Leads e e' → ∀ id c, e.find? id = some c → c.hasError →
      ∃ c', e'.find? id = some c' ∧ c'.type = c.type ∧ c'.errors = c.errors) ∧
    ∀ s : Nat → Engine σ κ, s 0 = e → (∀ n, Leads (s n) (s (n + 1))) → ∀ id, ∃ n ds,
      ∀ k c, (s k).find? id = some c → c.errors = if k < n then [] else ds := by
  have hw := hh.wellFormed
  constructor
  · intro e' h id c hc herr
    obtain ⟨c', hc', hf⟩ := hw.freezes_leads h id c hc
    exact ⟨c', hc', hf herr⟩
  · rintro s rfl hs id
    exact hw.exists_errors_eq hs id

/-- A text is found to be an integer, and then faulty. -/
def faultyText : List (Command String (Constant Unit)) :=
  [.rule ⟨"integer", .ofStatements [.satisfied, .unifyType (.plain (.atom "Int")) 0]⟩,
    .rule ⟨"faulty", about "Text" [.fail "faulty" [0]]⟩, .clue "Text" "a" nothing [], .process]

/-- A leaf on the text, and a rule that makes what a leaf is on a truth value. -/
def leafOnText : List (Command String (Constant Unit)) :=
  [.rule ⟨"truth value", .ofStatements [.satisfied, .unifyType (.plain (.atom "Bool")) 1]⟩,
    .clue "Leaf" "b" nothing [⟨"Text", 1, 1⟩], .process]

theorem frozen_of_hasError_faulty_text :
    let text : ClueId := ⟨"Text", 1, 1⟩
    let leaf : ClueId := ⟨"Leaf", 1, 2⟩
    let s n := (drive 3 {} (faultyText ++ leafOnText.take n)).1
    (∃ c, (s 0).find? text = some c ∧ c.hasError ∧
      ∃ c', (s 3).find? text = some c' ∧ c'.type = c.type ∧ c'.errors = c.errors) ∧
    (∀ n, Leads (s n) (s (n + 1))) ∧
    ∃ n ds, ∀ k c, (s k).find? leaf = some c → c.errors = if k < n then [] else ds := by
  intro text leaf s
  obtain ⟨hfrozen, honce⟩ :=
    frozen_of_hasError (history_drive 3 {} (faultyText ++ leafOnText.take 0))
  have herr : ((s 0).find? text).any Clue.hasError := by decide +kernel
  obtain ⟨hsome, herr⟩ := (Option.any_eq_true_iff_get _ _).1 herr
  have hc : (s 0).find? text = some _ := (Option.some_get hsome).symm
  have hs : ∀ n, Leads (s n) (s (n + 1)) := by
    intro n
    have hl := leads_drive 3 {} (faultyText ++ leafOnText.take n) (leafOnText[n]?.toList)
    rwa [List.append_assoc, ← List.take_add_one] at hl
  exact ⟨⟨_, hc, herr, hfrozen (s 3) (leads_of_le hs (Nat.zero_le 3)) text _ hc herr⟩, hs,
    honce s rfl hs leaf⟩

end TypeClues.Engine
