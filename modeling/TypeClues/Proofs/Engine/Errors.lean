import Mathlib.Data.List.Sublists
import TypeClues.Proofs.Engine.History

/-!
# How errors pass on

A clue inherits the errors of its dependencies when it is looked at. A clue that fails does not wake
its dependents, so one that fails late, after they have been looked at, leaves them without error.
Which clue was looked at and which one got its errors, in this order, decides who is in error.
-/
namespace TypeClues

/-- What a history tells about looking at clues and about their errors. -/
inductive Mark where
  | looked (id : ClueId)
  /-- The clue got its errors. -/
  | erred (id : ClueId)
deriving DecidableEq

def Event.mark? {σ κ : Type} : Event σ κ → Option Mark
  | .dequeued id => some (.looked id)
  | .inherited id _ => some (.erred id)
  | .ruleFailed _ id _ => some (.erred id)
  | _ => none

namespace Engine
variable {σ κ : Type} {p : Policy} {e : Engine σ κ} {es : List (Event σ κ)}

def marks (es : List (Event σ κ)) : List Mark := es.filterMap Event.mark?

@[simp] theorem marks_nil : marks ([] : List (Event σ κ)) = [] := rfl

@[simp] theorem marks_append (es fs : List (Event σ κ)) : marks (es ++ fs) = marks es ++ marks fs :=
  List.filterMap_append

theorem marks_concat {ev : Event σ κ} (h : ev.mark? = none) : marks (es ++ [ev]) = marks es := by
  rw [marks_append]
  simp [marks, h]

@[simp] theorem marks_invoke (r : Rule κ) (ts : List ClueId) : marks (e.invoke r ts).2 = [] := by
  simp only [invoke, marks, List.filterMap_map]
  exact List.filterMap_eq_nil_iff.2 fun _ _ => rfl

theorem refine_quiet (id : ClueId) (q : Qualified) :
    marks (e.refine id q).2 = [] ∧
      (e.refine id q).1.clues.map Clue.errors = e.clues.map Clue.errors := by
  rcases e.refine_cases id q with hr | ⟨c, -, -, hr⟩
  · rw [hr]
    exact ⟨rfl, rfl⟩
  · rw [hr]
    refine ⟨rfl, ?_⟩
    apply map_modify_eq
    intro c
    rfl

theorem refineAll_quiet (l : List (ClueId × Qualified)) :
    marks (refineAll l e).2 = [] ∧
      (refineAll l e).1.clues.map Clue.errors = e.clues.map Clue.errors := by
  induction l generalizing e with
  | nil => exact ⟨rfl, rfl⟩
  | cons q l ih =>
    obtain ⟨hm, he⟩ := refine_quiet (e := e) q.1 q.2
    obtain ⟨hm', he'⟩ := ih (e := (e.refine q.1 q.2).1)
    simp only [refineAll, marks_append, hm, hm']
    exact ⟨rfl, he'.trans he⟩

theorem errors_addErrors (id : ClueId) (ds : List (Diagnostic σ)) :
    (e.addErrors id ds).clues.map Clue.errors =
      (e.clues.map Clue.errors).modify id.slot (· ++ ds) := by
  apply map_modify
  intro c
  rfl

theorem runRules_marks (id : ClueId) (ts : List ClueId) (rs : List (Rule κ)) :
    let r := runRules id ts rs e
    (marks r.2 = [] ∧ r.1.clues.map Clue.errors = e.clues.map Clue.errors) ∨
      (marks r.2 = [.erred id] ∧ ∃ d, r.1.clues.map Clue.errors =
        (e.clues.map Clue.errors).modify id.slot (· ++ [d])) := by
  induction rs generalizing e with
  | nil => exact .inl ⟨rfl, rfl⟩
  | cons r rs ih =>
    have hi := marks_invoke (e := e) r ts
    simp only [runRules]
    cases (e.invoke r ts).1 with
    | notApplicable d =>
      have hc : ∀ fs : List (Event σ κ), marks (.notApplicable r.name id d :: fs) = marks fs :=
        fun _ => rfl
      simpa [hi, hc] using ih (e := e)
    | failed d =>
      refine .inr ⟨?_, d, errors_addErrors id [d]⟩
      rw [marks_append, hi]
      rfl
    | refined types =>
      obtain ⟨hm, he⟩ := refineAll_quiet (e := e) (ts.zip types)
      simpa [hi, hm, he] using ih (e := (refineAll (ts.zip types) e).1)

/-- Looking at a clue without errors puts errors on it if a dependency has one, and only on it. -/
theorem examine_marks {id : ClueId} {c : Clue σ κ} (hc : e.at? id = some c) :
    let r := e.examine id
    (marks r.2 = [] ∧ r.1.clues.map Clue.errors = e.clues.map Clue.errors ∧
        (c.hasError ∨ ∀ d ∈ c.dependencies, ¬ e.hasError d)) ∨
      (marks r.2 = [.erred id] ∧ ∃ ds, ds ≠ [] ∧ r.1.clues.map Clue.errors =
        (e.clues.map Clue.errors).modify id.slot (· ++ ds)) := by
  simp only [examine, hc]
  by_cases hb : c.hasError
  · simp [hb]
  · simp only [hb]
    cases hf : c.dependencies.filter e.hasError with
    | nil =>
      have hd : ∀ d ∈ c.dependencies, ¬ e.hasError d := List.filter_eq_nil_iff.1 hf
      rcases runRules_marks (e := e) id (id :: c.dependencies) e.rules with ⟨hm, he⟩ | ⟨hm, d, he⟩
      · exact .inl ⟨hm, he, .inr hd⟩
      · exact .inr ⟨hm, [d], by simp, he⟩
    | cons d ds =>
      exact .inr ⟨rfl, _, by simp, errors_addErrors id _⟩

/-- One step looks at one clue, and only this clue may get errors. -/
theorem WellFormed.step?_marks (h : e.WellFormed) {r : Engine σ κ × List (Event σ κ)}
    (hs : e.step? = some r) : ∃ c ∈ e.clues,
      (marks r.2 = [.looked c.id] ∧ r.1.clues.map Clue.errors = e.clues.map Clue.errors ∧
        (c.hasError ∨ ∀ d ∈ c.dependencies, ¬ e.hasError d)) ∨
      (marks r.2 = [.looked c.id, .erred c.id] ∧ ∃ ds, ds ≠ [] ∧ r.1.clues.map Clue.errors =
        (e.clues.map Clue.errors).modify c.id.slot (· ++ ds)) := by
  obtain ⟨id, rest, hp, rfl⟩ := step?_eq_some hs
  obtain ⟨c, hc, rfl⟩ := h.pending id ((OrderedSet.mem_of_popLeast? hp).2 (.inl rfl))
  have hm : ∀ fs : List (Event σ κ), marks (.dequeued c.id :: fs) = .looked c.id :: marks fs :=
    fun _ => rfl
  refine ⟨c, hc, ?_⟩
  have hat : at? { e with pending := rest } c.id = some c := h.at?_of_mem hc
  rcases examine_marks hat with ⟨hq, he, hd⟩ | ⟨hq, he⟩
  · exact .inl ⟨by rw [hm, hq], he, hd⟩
  · exact .inr ⟨by rw [hm, hq], he⟩

theorem hasError_eq (i : ClueId) :
    e.hasError i = (e.clues.map Clue.errors)[i.slot]?.any fun l => !l.isEmpty := by
  rw [hasError, at?, List.getElem?_map, Option.any_map]
  rfl

theorem hasError_of_errors {e' : Engine σ κ}
    (h : e'.clues.map Clue.errors = e.clues.map Clue.errors) (i : ClueId) :
    e'.hasError i = e.hasError i := by
  rw [hasError_eq, hasError_eq, h]

theorem hasError_iff_of_modify {e' : Engine σ κ} {s : Nat} {ds : List (Diagnostic σ)} (hds : ds ≠ [])
    (h : e'.clues.map Clue.errors = (e.clues.map Clue.errors).modify s (· ++ ds)) {i : ClueId}
    (hi : i.slot < e.clues.length) : e'.hasError i ↔ i.slot = s ∨ e.hasError i := by
  rw [hasError_eq, hasError_eq, h, List.getElem?_modify]
  by_cases hs : s = i.slot
  · simp [hs, hi, hds]
  · simp [hs, Ne.symm hs]

theorem pair_sublist_cons {α : Type} {a b x : α} {l : List α} :
    [a, b].Sublist (x :: l) ↔ [a, b].Sublist l ∨ (a = x ∧ b ∈ l) := by
  rw [List.cons_sublist_cons', List.singleton_sublist]

theorem pair_sublist_append {α : Type} {a b : α} {l m : List α} :
    [a, b].Sublist (l ++ m) ↔ [a, b].Sublist l ∨ (a ∈ l ∧ b ∈ m) ∨ [a, b].Sublist m := by
  induction l with
  | nil => simp
  | cons x l ih =>
    rw [List.cons_append, pair_sublist_cons, ih, pair_sublist_cons, List.mem_append, List.mem_cons]
    grind

theorem pair_sublist_total {α : Type} {a b : α} {l : List α} (ha : a ∈ l) (hb : b ∈ l)
    (hne : a ≠ b) : [a, b].Sublist l ∨ [b, a].Sublist l := by
  induction l with
  | nil => cases ha
  | cons x l ih =>
    rw [pair_sublist_cons, pair_sublist_cons]
    rcases List.mem_cons.1 ha with rfl | ha'
    · have hb' : b ∈ l := (List.mem_cons.1 hb).resolve_left (Ne.symm hne)
      exact .inl (.inr ⟨rfl, hb'⟩)
    · rcases List.mem_cons.1 hb with rfl | hb'
      · exact .inr (.inr ⟨rfl, ha'⟩)
      · exact (ih ha' hb').imp .inl .inl

/-- The marks show which clues are in error, and which errors had to be passed on. -/
structure ErrorsMarked (e : Engine σ κ) (ms : List Mark) : Prop where
  erred : ∀ i, .erred i ∈ ms ↔ e.Issued i ∧ e.hasError i
  looked : ∀ i, .looked i ∈ ms → e.Issued i
  /-- A clue that was looked at when a dependency was in error is in error. -/
  inherits : ∀ c ∈ e.clues, ∀ d ∈ c.dependencies,
    [.erred d, .looked c.id].Sublist ms → e.hasError c.id
  /-- A clue is looked at right before it gets its errors. -/
  looked_after : ∀ i j, i ≠ j → [.erred i, .erred j].Sublist ms → [.erred i, .looked j].Sublist ms

theorem errorsMarked_empty (p : Policy) : ErrorsMarked ({ policy := p } : Engine σ κ) [] where
  erred i := by simp [Issued]
  looked i hi := by cases hi
  inherits c hc := by cases hc
  looked_after i j _ h := by simp at h

theorem ErrorsMarked.withClue {ms : List Mark} (h : ErrorsMarked e ms) (he : e.WellFormed)
    {new : Clue σ κ} (hs : new.id.serial = e.supply.allocated + 1) (hn : new.errors = [])
    (hw : (e.withClue new).WellFormed) : ErrorsMarked (e.withClue new) ms := by
  have hnot : ¬ e.Issued new.id := by
    intro hi
    have hle := he.serial_le hi
    rw [hs, he.allocated] at hle
    omega
  have hold : ∀ i, e.Issued i → (e.withClue new).hasError i = e.hasError i :=
    fun i hi => hasError_withClue (he.slot_lt hi)
  have hnew : (e.withClue new).hasError new.id = false := by
    have hmem : new ∈ (e.withClue new).clues := by simp [Engine.withClue]
    rw [hw.hasError_of_mem hmem]
    simp [Clue.hasError, hn]
  constructor
  case erred =>
    intro i
    rw [h.erred, issued_withClue]
    by_cases hi : e.Issued i
    · simp [hi, hold i hi]
    · constructor
      · intro hc
        exact absurd hc.1 hi
      · rintro ⟨hc | rfl, herr⟩
        · exact absurd hc hi
        · simp [hnew] at herr
  case looked =>
    intro i hi
    exact issued_withClue.2 (.inl (h.looked i hi))
  case inherits =>
    intro c hc d hd hsub
    simp only [Engine.withClue, List.mem_append, List.mem_map, List.mem_singleton] at hc
    rcases hc with ⟨b, hb, rfl⟩ | rfl
    · rw [Clue.id_link] at hsub ⊢
      rw [Clue.dependencies_link] at hd
      rw [hold b.id ⟨b, hb, rfl⟩]
      exact h.inherits b hb d hd hsub
    · -- nobody has looked at a clue that was not there
      exact absurd (h.looked c.id (hsub.subset (by simp))) hnot
  case looked_after => exact h.looked_after

/-- A look at one clue, which may give it errors and does if a dependency has some. -/
theorem ErrorsMarked.look {e' : Engine σ κ} {ms fs : List Mark} (h : ErrorsMarked e ms)
    (he : e.WellFormed) (hv : Evolves e e') {c : Clue σ κ} (hc : c ∈ e.clues)
    (hfs : ∀ m ∈ fs, m = .erred c.id)
    (herr : ∀ i, e.Issued i → (e'.hasError i ↔ e.hasError i ∨ .erred i ∈ fs))
    (hin : ∀ d ∈ c.dependencies, e.hasError d → e'.hasError c.id) :
    ErrorsMarked e' (ms ++ .looked c.id :: fs) := by
  have herred : ∀ i, .erred i ∈ fs → i = c.id := fun i hi => by simpa using hfs _ hi
  have hlooked : ∀ i, .looked i ∉ fs := fun i hi => by simpa using hfs _ hi
  constructor
  case erred =>
    intro i
    rw [List.mem_append, h.erred, hv.issued_iff]
    constructor
    · rintro (⟨hi, hi'⟩ | hi)
      · exact ⟨hi, (herr i hi).2 (.inl hi')⟩
      · have hi : .erred i ∈ fs := by simpa using hi
        have hc' : e.Issued i := ⟨c, hc, (herred i hi).symm⟩
        exact ⟨hc', (herr i hc').2 (.inr hi)⟩
    · rintro ⟨hi, hi'⟩
      rcases (herr i hi).1 hi' with hold | hnew
      · exact .inl ⟨hi, hold⟩
      · exact .inr (List.mem_cons_of_mem _ hnew)
  case looked =>
    intro i hi
    rw [hv.issued_iff]
    rcases List.mem_append.1 hi with hi | hi
    · exact h.looked i hi
    · rcases List.mem_cons.1 hi with hi | hi
      · cases hi
        exact ⟨c, hc, rfl⟩
      · exact absurd hi (hlooked i)
  case inherits =>
    intro b' hb' d hd hsub
    obtain ⟨b, hb, hf⟩ := Clue.exists_mem_of_frame hv.frame hb'
    rw [← Clue.dependencies_of_frame hf] at hd
    rw [← Clue.id_of_frame hf] at hsub ⊢
    rcases pair_sublist_append.1 hsub with hsub | ⟨hd', hb'⟩ | hsub
    · exact (herr b.id ⟨b, hb, rfl⟩).2 (.inl (h.inherits b hb d hd hsub))
    · have hbc : b.id = c.id := by simpa [hlooked] using hb'
      have hcb : b = c := by
        have hat := he.at?_of_mem hb
        rw [hbc, he.at?_of_mem hc] at hat
        exact (Option.some.inj hat).symm
      rw [hcb] at hd ⊢
      exact hin d hd ((h.erred d).1 hd').2
    · have hmem : .looked b.id ∈ fs := by
        rcases pair_sublist_cons.1 hsub with hsub | ⟨hne, -⟩
        · exact hsub.subset (by simp)
        · cases hne
      exact absurd hmem (hlooked b.id)
  case looked_after =>
    intro i j hij hsub
    rw [pair_sublist_append] at hsub ⊢
    rcases hsub with hsub | ⟨hi, hj⟩ | hsub
    · exact .inl (h.looked_after i j hij hsub)
    · have hj : .erred j ∈ fs := by simpa using hj
      rw [herred j hj]
      exact .inr (.inl ⟨hi, List.mem_cons_self⟩)
    · have hsub : [Mark.erred i, .erred j].Sublist fs := by
        rcases pair_sublist_cons.1 hsub with hsub | ⟨hne, -⟩
        · exact hsub
        · cases hne
      have hi := herred i (hsub.subset (by simp))
      have hj := herred j (hsub.subset (by simp))
      exact absurd (hi.trans hj.symm) hij

theorem ErrorsMarked.step {ms : List Mark} (h : ErrorsMarked e ms) (he : e.WellFormed)
    {r : Engine σ κ × List (Event σ κ)} (hs : e.step? = some r) :
    ErrorsMarked r.1 (ms ++ marks r.2) := by
  have hv := evolves_step? hs
  obtain ⟨c, hc, ⟨hm, herr, hd⟩ | ⟨hm, ds, hds, herr⟩⟩ := he.step?_marks hs
  · have hsame := hasError_of_errors herr
    rw [hm]
    apply h.look he hv hc
    · simp
    · simp [hsame]
    · intro d hdep herr
      rw [hsame, he.hasError_of_mem hc]
      exact hd.resolve_right fun hno => hno d hdep herr
  · have hlt : ∀ i, e.Issued i → (r.1.hasError i ↔ i = c.id ∨ e.hasError i) := by
      intro i hi
      rw [hasError_iff_of_modify hds herr (he.slot_lt hi)]
      have hslot : i.slot = c.id.slot ↔ i = c.id :=
        ⟨he.slot_inj hi ⟨c, hc, rfl⟩, fun h => h ▸ rfl⟩
      rw [hslot]
    rw [hm]
    apply h.look he hv hc
    · simp
    · intro i hi
      rw [hlt i hi, or_comm]
      simp
    · intro d _ _
      exact (hlt c.id ⟨c, hc, rfl⟩).2 (.inl rfl)

theorem History.errorsMarked (h : History p e es) : ErrorsMarked e (marks es) := by
  induction h with
  | empty => exact errorsMarked_empty p
  | rule _ r ih =>
    rw [addRule, marks_concat rfl]
    exact ⟨ih.erred, ih.looked, ih.inherits, ih.looked_after⟩
  | clue hh ha ih =>
    have hw := hh.wellFormed
    have hw' := hw.addClue ha
    obtain ⟨-, rfl⟩ := hw.addClue_ok ha
    rw [marks_concat rfl]
    exact ih.withClue hw rfl rfl hw'
  | step hh hs ih =>
    rw [marks_append]
    exact ih.step hh.wellFormed hs
  | settled _ n ih =>
    rw [marks_concat rfl]
    exact ih

/-- A dependent of a clue in error is in error itself exactly if it was looked at after the error
came up, or was in error before. -/
theorem hasError_iff_looked_after (limit : Nat) (p : Policy) (cs : List (Command σ κ))
    {c : Clue σ κ} (hc : c ∈ (drive limit p cs).1.clues) {d : ClueId} (hd : d ∈ c.dependencies)
    (he : (drive limit p cs).1.hasError d) :
    c.hasError ↔ [.erred d, .looked c.id].Sublist (marks (drive limit p cs).2) ∨
      [.erred c.id, .erred d].Sublist (marks (drive limit p cs).2) := by
  have hh := history_drive limit p cs
  have hw := hh.wellFormed
  have ht := hh.errorsMarked
  obtain ⟨hi, hlt⟩ := hw.dependencies c hc d hd
  have hne : d ≠ c.id := by
    intro h
    rw [h] at hlt
    exact Nat.lt_irrefl _ hlt
  rw [← hw.hasError_of_mem hc]
  constructor
  · intro hce
    have hmc := (ht.erred c.id).2 ⟨⟨c, hc, rfl⟩, hce⟩
    have hmd := (ht.erred d).2 ⟨hi, he⟩
    have hm : Mark.erred d ≠ .erred c.id := by simpa using hne
    exact (pair_sublist_total hmd hmc hm).imp (ht.looked_after d c.id hne) id
  · rintro (hsub | hsub)
    · exact ht.inherits c hc d hd hsub
    · exact ((ht.erred c.id).1 (hsub.subset (by simp))).2

/-- Texts are found faulty only by a rule that comes after they and the leaves have been looked at.
A pin, which makes the hole under the text an integer, has the text looked at once more. -/
def lateFailure : List (Command String (Constant Unit)) :=
  [.clue "Hole" "a" nothing [], .clue "Text" "b" nothing [hole],
    .clue "Leaf" "c" nothing [⟨"Text", 1, 2⟩], .process,
    .rule ⟨"Text", about "Text" [.fail "faulty" [0]]⟩, .rule pinSame,
    .clue "Pin" "d" nothing [hole], .process]

/-- Another leaf comes after the failure and inherits it. -/
theorem hasError_iff_looked_after_new_leaf :
    let text : ClueId := ⟨"Text", 1, 2⟩
    let s := drive 3 {} (lateFailure ++ [.clue "Leaf" "e" nothing [text], .process])
    ∃ c ∈ s.1.clues, text ∈ c.dependencies ∧ s.1.hasError text ∧ c.hasError := by
  intro text s
  have hl : ∃ c ∈ s.1.clues, text ∈ c.dependencies ∧ s.1.hasError text ∧
      [.erred text, .looked c.id].Sublist (marks s.2) := by
    decide +kernel
  obtain ⟨c, hc, hd, he, hl⟩ := hl
  exact ⟨c, hc, hd, he, (hasError_iff_looked_after _ _ _ hc hd he).2 (.inl hl)⟩

/-- Errors have reached all clues that depend on them. -/
def ErrorsReachDependents (e : Engine σ κ) : Prop :=
  ∀ c ∈ e.clues, ∀ d ∈ c.dependencies, e.hasError d → c.hasError

instance (e : Engine σ κ) : Decidable e.ErrorsReachDependents :=
  inferInstanceAs (Decidable (∀ c ∈ e.clues, ∀ d ∈ c.dependencies, e.hasError d → c.hasError))

/-- Nothing is pending, and the leaf is not in error although the text is. -/
theorem not_errorsReachDependents_lateFailure :
    (drive 3 {} lateFailure).1.pending = ∅ ∧
      ¬ (drive 3 {} lateFailure).1.ErrorsReachDependents := by
  decide +kernel

end Engine
end TypeClues
