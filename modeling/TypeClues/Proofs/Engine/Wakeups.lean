import TypeClues.Proofs.Engine.Runs

/-!
# Nobody is forgotten

A new type is stored together with the wake-up of all dependents, so a clue that is not pending has
been looked at, and no dependency has got a new type since that look began. Pending clues are taken
the oldest first and dependencies are older than their dependents, so a clue is looked at only when
all that it depends on, directly or not, has been looked at and waits for nothing.
-/
namespace TypeClues.Engine
variable {σ κ : Type} {e e' e'' : Engine σ κ} {fs gs : List (Event σ κ)}

/-- What the work between two dequeues does for the clues that wait: nobody pending is forgotten,
whatever depends on a clue with a new type is pending, and all other clues keep their types. -/
structure Wakes (e e' : Engine σ κ) (fs : List (Event σ κ)) : Prop where
  evolves : Evolves e e'
  pending : ∀ i ∈ e.pending, i ∈ e'.pending
  woken : ∀ j old new, .refined j old new ∈ fs → ∀ c, e.at? j = some c →
    ∀ i ∈ c.dependents, i ∈ e'.pending
  kept : ∀ j, e.Issued j → (∀ old new, .refined j old new ∉ fs) →
    (e'.at? j).map Clue.type = (e.at? j).map Clue.type
  quiet : ∀ i, .dequeued i ∉ fs

def Silent (fs : List (Event σ κ)) : Prop :=
  (∀ j old new, .refined j old new ∉ fs) ∧ ∀ i, .dequeued i ∉ fs

theorem Silent.wakes (hs : Silent fs) (he : Evolves e e') (hp : e'.pending = e.pending)
    (ht : ∀ j, (e'.at? j).map Clue.type = (e.at? j).map Clue.type) : Wakes e e' fs where
  evolves := he
  pending _ hi := hp ▸ hi
  woken j old new hj := absurd hj (hs.1 j old new)
  kept j _ _ := ht j
  quiet := hs.2

theorem Wakes.silent (hs : Silent fs) : Wakes e e fs := hs.wakes (.refl e) rfl fun _ => rfl

theorem Wakes.trans (h : Wakes e e' fs) (h' : Wakes e' e'' gs) : Wakes e e'' (fs ++ gs) where
  evolves := h.evolves.trans h'.evolves
  pending i hi := h'.pending i (h.pending i hi)
  woken j old new hj c hc i hi := by
    rcases List.mem_append.1 hj with hj | hj
    · exact h'.pending i (h.woken j old new hj c hc i hi)
    · have hf := h.evolves.at?_frame j
      rw [hc] at hf
      obtain ⟨c', hc', hf⟩ := Option.map_eq_some_iff.1 hf
      exact h'.woken j old new hj c' hc' i (Clue.dependents_of_frame hf ▸ hi)
  kept j hj hn := by
    have hl : ∀ old new, .refined j old new ∉ fs := fun old new h =>
      hn old new (List.mem_append_left gs h)
    have hr : ∀ old new, .refined j old new ∉ gs := fun old new h =>
      hn old new (List.mem_append_right fs h)
    rw [h'.kept j (h.evolves.issued_iff.2 hj) hr, h.kept j hj hl]
  quiet i hi := (List.mem_append.1 hi).elim (h.quiet i) (h'.quiet i)

theorem WellFormed.wakes_refine (he : e.WellFormed) {id : ClueId} (hid : e.Issued id)
    (q : Qualified) : Wakes e (e.refine id q).1 (e.refine id q).2 := by
  rcases e.refine_cases id q with hr | ⟨c, hc, -, hr⟩
  · rw [hr]
    exact .silent (by simp [Silent])
  · have hv := evolves_refine (e := e) id q
    have hat := e.at?_refine id (q := q)
    rw [hr] at hv hat ⊢
    constructor
    case evolves => exact hv
    case pending => exact fun i hi => OrderedSet.mem_union.2 (.inl hi)
    case woken =>
      intro j old new hj d hd i hi
      cases List.mem_singleton.1 hj
      cases hc.symm.trans hd
      exact OrderedSet.mem_union.2 (.inr hi)
    case kept =>
      intro j hj hn
      have hne : id.slot ≠ j.slot := by
        intro hs
        cases he.slot_inj hid hj hs
        exact hn c.type q.canonical List.mem_cons_self
      rw [hat j, if_neg hne]
    case quiet => simp

theorem WellFormed.wakes_refineAll (he : e.WellFormed) {l : List (ClueId × Qualified)}
    (hl : ∀ x ∈ l, e.Issued x.1) : Wakes e (refineAll l e).1 (refineAll l e).2 := by
  induction l generalizing e with
  | nil => exact .silent (by simp [Silent, refineAll])
  | cons x l ih =>
    have hv := evolves_refine (e := e) x.1 x.2
    refine (he.wakes_refine (hl x List.mem_cons_self) x.2).trans (ih (he.evolves hv) ?_)
    exact fun y hy => hv.issued_iff.2 (hl y (List.mem_cons_of_mem x hy))

theorem wakes_addErrors (id : ClueId) (ds : List (Diagnostic σ)) (hs : Silent fs) :
    Wakes e (e.addErrors id ds) fs := by
  refine hs.wakes (evolves_addErrors id ds) rfl fun j => ?_
  rw [at?_addErrors]
  split
  · rw [Option.map_map]
    rfl
  · rfl

theorem silent_invoke (r : Rule κ) (ts : List ClueId) : Silent (e.invoke r ts).2 := by
  simp [Silent, invoke]

theorem WellFormed.wakes_runRules (he : e.WellFormed) (id : ClueId) {ts : List ClueId}
    (ht : ∀ t ∈ ts, e.Issued t) (rs : List (Rule κ)) :
    Wakes e (runRules id ts rs e).1 (runRules id ts rs e).2 := by
  induction rs generalizing e with
  | nil => exact .silent (by simp [Silent, runRules])
  | cons r rs ih =>
    have hi : Wakes e e (e.invoke r ts).2 := .silent (silent_invoke r ts)
    rw [runRules]
    cases (e.invoke r ts).1 with
    | notApplicable d =>
      have hn : Wakes e e [.notApplicable r.name id d] := .silent (by simp [Silent])
      exact hi.trans (hn.trans (ih he ht))
    | failed d => exact hi.trans (wakes_addErrors id [d] (by simp [Silent]))
    | refined types =>
      have hz : ∀ x ∈ ts.zip types, e.Issued x.1 := fun x hx => ht x.1 (List.of_mem_zip hx).1
      have hw := he.wakes_refineAll hz
      refine (hi.trans hw).trans (ih (he.evolves hw.evolves) ?_)
      exact fun t h => hw.evolves.issued_iff.2 (ht t h)

theorem WellFormed.wakes_examine (he : e.WellFormed) {id : ClueId} (hid : e.Issued id) :
    Wakes e (e.examine id).1 (e.examine id).2 := by
  obtain ⟨c, hc, rfl⟩ := hid
  rw [examine, he.at?_of_mem hc]
  by_cases hn : c.hasError
  · simp only [hn, if_true]
    exact .silent (by simp [Silent])
  · simp only [hn]
    cases c.dependencies.filter e.hasError with
    | nil =>
      apply he.wakes_runRules
      intro t ht
      rcases List.mem_cons.1 ht with rfl | ht
      · exact ⟨c, hc, rfl⟩
      · exact (he.dependencies c hc t ht).1
    | cons d ds => exact wakes_addErrors c.id _ (by simp [Silent])

/-- A step takes the oldest pending clue and works on it. -/
theorem WellFormed.wakes_step (he : e.WellFormed) {r : Engine σ κ × List (Event σ κ)}
    (hs : e.step? = some r) : ∃ id rest fs, e.pending.popLeast? = some (id, rest) ∧
      r.2 = .dequeued id :: fs ∧ Wakes { e with pending := rest } r.1 fs := by
  obtain ⟨id, rest, hp, rfl⟩ := step?_eq_some hs
  have hv := evolves_pop hp
  have hid : e.Issued id := he.pending id ((OrderedSet.mem_of_popLeast? hp).2 (.inl rfl))
  exact ⟨id, rest, _, hp, rfl, (he.evolves hv).wakes_examine (hv.issued_iff.2 hid)⟩

variable {p : Policy} {es : List (Event σ κ)} {c c' : Clue σ κ}

/-- In this history the clue was looked at last when the engine was `e₀`, and its dependencies have
kept their types from the beginning of that look on. -/
def UpToDate (p : Policy) (e : Engine σ κ) (es : List (Event σ κ)) (c : Clue σ κ) : Prop :=
  ∃ e₀ before after, History p e₀ before ∧ e₀.pending.popLeast?.map Prod.fst = some c.id ∧
    Leads e₀ e ∧ es = before ++ .dequeued c.id :: after ∧ .dequeued c.id ∉ after ∧
    ∀ d ∈ c.dependencies, (∀ old new, .refined d old new ∉ after) ∧
      (e.at? d).map Clue.type = (e₀.at? d).map Clue.type

theorem UpToDate.extend (h : UpToDate p e es c) (hl : Leads e e') (hid : c'.id = c.id)
    (hdep : c'.dependencies = c.dependencies) (hq : .dequeued c.id ∉ fs)
    (hd : ∀ d ∈ c.dependencies, (∀ old new, .refined d old new ∉ fs) ∧
      (e'.at? d).map Clue.type = (e.at? d).map Clue.type) : UpToDate p e' (es ++ fs) c' := by
  obtain ⟨e₀, before, after, hh, hp, hl₀, rfl, hq₀, hd₀⟩ := h
  refine ⟨e₀, before, after ++ fs, hh, hid ▸ hp, hl₀.trans hl, ?_, ?_, fun d hm => ⟨?_, ?_⟩⟩
  · rw [hid, List.append_assoc, List.cons_append]
  · rw [hid, List.mem_append]
    exact fun h => h.elim hq₀ hq
  · intro old new h
    rw [hdep] at hm
    exact (List.mem_append.1 h).elim ((hd₀ d hm).1 old new) ((hd d hm).1 old new)
  · rw [hdep] at hm
    exact (hd d hm).2.trans (hd₀ d hm).2

theorem History.upToDate_step (hh : History p e es) {r : Engine σ κ × List (Event σ κ)}
    (hs : e.step? = some r) (ih : ∀ c ∈ e.clues, c.id ∉ e.pending → UpToDate p e es c)
    (hc : c ∈ r.1.clues) (hn : c.id ∉ r.1.pending) : UpToDate p r.1 (es ++ r.2) c := by
  have he := hh.wellFormed
  have hstep : Leads e r.1 := .single (.step ⟨r.2, hs⟩)
  obtain ⟨id, rest, fs, hp, hr, hw⟩ := he.wakes_step hs
  obtain ⟨b, hb, hf⟩ := Clue.exists_mem_of_frame (evolves_step? hs).frame hc
  have hbc := Clue.id_of_frame hf
  have hdep := Clue.dependencies_of_frame hf
  rw [← hbc] at hn
  -- a new type of a dependency would have left the clue pending
  have hkept : ∀ d ∈ b.dependencies, (∀ old new, .refined d old new ∉ fs) ∧
      (r.1.at? d).map Clue.type = (e.at? d).map Clue.type := by
    intro d hd
    obtain ⟨hi, -⟩ := he.dependencies b hb d hd
    have hno : ∀ old new, .refined d old new ∉ fs := by
      intro old new hm
      obtain ⟨a, ha, rfl⟩ := hi
      have hmem : b.id ∈ a.dependents := (he.dependents a ha b.id).2 ⟨b, hb, rfl, hd⟩
      exact hn (hw.woken a.id old new hm a (he.at?_of_mem ha) b.id hmem)
    exact ⟨hno, hw.kept d hi hno⟩
  rw [hr]
  by_cases hself : b.id = id
  · refine ⟨e, es, fs, hh, ?_, hstep, ?_, hw.quiet c.id, hdep ▸ hkept⟩
    · rw [hp, ← hbc, hself]
      rfl
    · rw [← hbc, hself]
  · have hb' : b.id ∉ e.pending := by
      intro hm
      rcases (OrderedSet.mem_of_popLeast? hp).1 hm with h | h
      · exact hself h
      · exact hn (hw.pending b.id h)
    refine (ih b hb hb').extend hstep hbc.symm hdep.symm ?_ fun d hd => ⟨?_, (hkept d hd).2⟩
    · simp [hself, hw.quiet b.id]
    · simpa using (hkept d hd).1

/-- No wake-up is lost: whenever a clue is not pending, in any history, it has been looked at, and
since its last look began no type was stored on a dependency, neither by that look nor later. -/
theorem upToDate_of_not_pending (h : History p e es) (hc : c ∈ e.clues) (hn : c.id ∉ e.pending) :
    UpToDate p e es c := by
  induction h generalizing c with
  | empty => cases hc
  | rule hh r ih =>
    exact (ih hc hn).extend (.single (.rule _ r)) rfl rfl (by simp [addRule])
      fun d _ => ⟨by simp [addRule], rfl⟩
  | @clue e es kind source constant ds r hh ha ih =>
    have he := hh.wellFormed
    have hl : Leads e r.2.1 := .single (.clue ha)
    obtain ⟨-, rfl⟩ := he.addClue_ok ha
    simp only [Engine.withClue, List.mem_append, List.mem_map, List.mem_singleton] at hc
    simp only [Engine.withClue, OrderedSet.mem_insert, not_or] at hn
    rcases hc with ⟨b, hb, rfl⟩ | rfl
    · rw [Clue.id_link] at hn
      refine (ih hb hn.2).extend hl (Clue.id_link _ b) (Clue.dependencies_link _ b) (by simp)
        fun d hd => ⟨by simp, ?_⟩
      rw [at?_withClue (he.slot_lt (he.dependencies b hb d hd).1), Option.map_map]
      simp [Function.comp_def]
    · exact absurd rfl hn.1
  | step hh hs ih => exact hh.upToDate_step hs (fun b hb hn => ih hb hn) hc hn
  | settled _ n ih => exact (ih hc hn).extend .refl rfl rfl (by simp) fun d _ => ⟨by simp, rfl⟩

/-- A text on a hole. A pin, which comes after it, makes the hole an integer. -/
def pinnedHole : List (Command String (Constant Unit)) :=
  [.rule pinSame, .clue "Hole" "a" nothing [], .clue "Text" "b" nothing [hole],
    .clue "Pin" "c" nothing [hole], .process]

/-- The hole has got its type from the pin, and the text has been looked at again. -/
theorem upToDate_of_not_pending_pinned_hole :
    let s := drive 5 {} pinnedHole
    (s.1.at? hole).map Clue.type = some (.plain (.atom "Int")) ∧
      ∃ c ∈ s.1.clues, hole ∈ c.dependencies ∧ c.id ∉ s.1.pending ∧ UpToDate {} s.1 s.2 c := by
  intro s
  have hc : (s.1.at? hole).map Clue.type = some (.plain (.atom "Int")) ∧
      ∃ c ∈ s.1.clues, hole ∈ c.dependencies ∧ c.id ∉ s.1.pending := by
    decide +kernel
  obtain ⟨ht, c, hc, hd, hn⟩ := hc
  exact ⟨ht, c, hc, hd, hn, upToDate_of_not_pending (history_drive 5 {} pinnedHole) hc hn⟩

def DependsOn (e : Engine σ κ) (i d : ClueId) : Prop := ∃ c ∈ e.clues, c.id = i ∧ d ∈ c.dependencies

instance (e : Engine σ κ) (i d : ClueId) : Decidable (e.DependsOn i d) :=
  inferInstanceAs (Decidable (∃ c ∈ e.clues, c.id = i ∧ d ∈ c.dependencies))

theorem WellFormed.older_of_dependsOn (he : e.WellFormed) {i d : ClueId}
    (h : Relation.TransGen e.DependsOn i d) : e.Issued d ∧ d.serial < i.serial := by
  have hdep : ∀ i d, e.DependsOn i d → e.Issued d ∧ d.serial < i.serial := by
    rintro i d ⟨c, hc, rfl, hd⟩
    exact he.dependencies c hc d hd
  induction h with
  | single h => exact hdep i _ h
  | tail _ h ih => exact ⟨(hdep _ _ h).1, (hdep _ _ h).2.trans ih.2⟩

theorem History.dequeued_of_not_pending (h : History p e es) {i : ClueId} (hi : e.Issued i)
    (hn : i ∉ e.pending) : .dequeued i ∈ es := by
  induction h with
  | empty =>
    obtain ⟨c, hc, -⟩ := hi
    cases hc
  | rule hh r ih => exact List.mem_append_left _ (ih hi hn)
  | clue hh ha ih =>
    obtain ⟨-, rfl⟩ := hh.wellFormed.addClue_ok ha
    rw [Engine.withClue, OrderedSet.mem_insert, not_or] at hn
    have hold := (issued_withClue.1 hi).resolve_right fun h => hn.1 h.symm
    exact List.mem_append_left _ (ih hold hn.2)
  | step hh hs ih =>
    obtain ⟨id, rest, fs, hp, hr, hw⟩ := hh.wellFormed.wakes_step hs
    rw [hr, List.mem_append, List.mem_cons]
    by_cases hid : i = id
    · exact .inr (.inl (congrArg _ hid))
    · refine .inl (ih ((evolves_step? hs).issued_iff.1 hi) fun hm => ?_)
      exact hn (hw.pending i (((OrderedSet.mem_of_popLeast? hp).1 hm).resolve_left hid))
  | settled _ n ih => exact List.mem_append_left _ (ih hi hn)

/-- Dependencies come first: whenever a clue is taken, in any history, nothing that it depends on,
directly or not, is pending, and all of it has been taken before. -/
theorem dependencies_dequeued_first (h : History p e es) {i : ClueId}
    (hs : e.step? = some (e', .dequeued i :: fs)) {d : ClueId}
    (hd : Relation.TransGen e.DependsOn i d) : d ∉ e.pending ∧ .dequeued d ∈ es := by
  have he := h.wellFormed
  obtain ⟨hi, hlt⟩ := he.older_of_dependsOn hd
  obtain ⟨id, rest, hp, hr⟩ := step?_eq_some hs
  have hid : i = id := by injection (List.cons.inj (Prod.mk.inj hr).2).1
  rw [← hid] at hp
  have hn : d ∉ e.pending := by
    intro hm
    rcases (OrderedSet.mem_of_popLeast? hp).1 hm with rfl | hm
    · exact Nat.lt_irrefl _ hlt
    · -- the oldest pending clue would be older than one that is older than it
      have hgt := Std.OrientedCmp.gt_of_lt (OrderedSet.lt_of_popLeast? hp hm)
      rw [compare_lt_of_serial hlt] at hgt
      cases hgt
  exact ⟨hn, h.dequeued_of_not_pending hi hn⟩

/-- A leaf comes after the hole got its type; it depends on the hole through the text. -/
theorem dependencies_dequeued_first_new_leaf :
    let text : ClueId := ⟨"Text", 1, 2⟩
    let leaf : ClueId := ⟨"Leaf", 1, 4⟩
    let s := drive 5 {} (pinnedHole ++ [.clue "Leaf" "d" nothing [text]])
    ∃ e' fs, s.1.step? = some (e', .dequeued leaf :: fs) ∧ Relation.TransGen s.1.DependsOn leaf hole ∧
      hole ∉ s.1.pending ∧ .dequeued hole ∈ s.2 := by
  intro text leaf s
  have hrun : s.1.pending.popLeast?.map Prod.fst = some leaf ∧ s.1.DependsOn leaf text ∧
      s.1.DependsOn text hole := by
    decide +kernel
  obtain ⟨hp, hleaf, htext⟩ := hrun
  obtain ⟨⟨i, rest⟩, hp, hi⟩ := Option.map_eq_some_iff.1 hp
  have hi : i = leaf := hi
  have hs := step?_of_popLeast? (hi ▸ hp)
  have hd : Relation.TransGen s.1.DependsOn leaf hole := .tail (.single hleaf) htext
  have hh : History {} s.1 s.2 := history_drive 5 {} _
  exact ⟨_, _, hs, hd, dependencies_dequeued_first hh hs hd⟩

end TypeClues.Engine
