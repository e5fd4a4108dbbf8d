import TypeClues.Proofs.Engine.Runs
import TypeClues.Proofs.Rule.Failure

/-!
# Independent parts

A part of the clues that neither depends on other clues nor has others depend on it can be followed
by an engine that has only this part, under other ids in the same order. A step inside the part is
the same step there: the oldest pending clue of all is the oldest of the part, the rules see the
same faces, and the same types and errors are stored. A step outside of the part changes nothing
that the other engine has.
-/
namespace TypeClues
variable {σ κ : Type}

def Diagnostic.rename (ρ : ClueId → ClueId) : Diagnostic σ → Diagnostic σ
  | .reported message culpable => .reported message culpable
  | .inherited d => .inherited (ρ d)

namespace Clue

def rename (ρ : ClueId → ClueId) (c : Clue σ κ) : Clue σ κ :=
  { c with
    id := ρ c.id
    dependencies := c.dependencies.map ρ
    dependents := .ofList (c.dependents.toList.map ρ)
    errors := c.errors.map (Diagnostic.rename ρ) }

variable {ρ : ClueId → ClueId} {c : Clue σ κ}

theorem mem_dependents_rename {i : ClueId} :
    i ∈ (c.rename ρ).dependents ↔ ∃ j ∈ c.dependents, ρ j = i :=
  OrderedSet.mem_ofList.trans List.mem_map

theorem targets_rename : (c.rename ρ).targets = c.targets.map ρ := rfl

@[simp] theorem hasError_rename : (c.rename ρ).hasError = c.hasError := by
  simp [hasError, rename]

theorem rename_learn (q : Qualified) : (c.learn q).rename ρ = (c.rename ρ).learn q := by
  by_cases hq : c.type.Equivalent q <;> simp [learn, rename, hq]

theorem face_rename (h : (ρ c.id).word = c.id.word) : (c.rename ρ).face = c.face :=
  congrArg (fun w => (w, c.source, c.constant, c.type)) h

end Clue

namespace Engine
variable {e e' m f m' : Engine σ κ} {A : ClueId → Prop} {ρ : ClueId → ClueId} {c : Clue σ κ}
  {rs : List (Rule κ)}

/-- A part that is closed under dependencies and dependents, with new ids of the same words and in
the same order. -/
structure Part (e : Engine σ κ) (A : ClueId → Prop) (ρ : ClueId → ClueId) : Prop where
  closed : ∀ c ∈ e.clues, ∀ d ∈ c.dependencies, A d ↔ A c.id
  word : ∀ i, e.Issued i → A i → (ρ i).word = i.word
  older : ∀ i j, e.Issued i → e.Issued j → A i → A j → i.slot < j.slot → (ρ i).slot < (ρ j).slot

/-- The second engine has the part of the first, under the new ids, and nothing else is pending. -/
structure Mirrors (A : ClueId → Prop) (ρ : ClueId → ClueId) (e f : Engine σ κ) : Prop where
  policy : f.policy = e.policy
  rules : f.rules = e.rules
  clue : ∀ j, e.Issued j → A j → f.at? (ρ j) = (e.at? j).map (Clue.rename ρ)
  pending : ∀ i, i ∈ f.pending ↔ ∃ j ∈ e.pending, A j ∧ ρ j = i

theorem Part.of_frame (h : Part e A ρ) (hf : e'.clues.map Clue.frame = e.clues.map Clue.frame) :
    Part e' A ρ where
  closed c hc d hd := by
    obtain ⟨b, hb, hbc⟩ := Clue.exists_mem_of_frame hf hc
    rw [← Clue.id_of_frame hbc]
    exact h.closed b hb d (Clue.dependencies_of_frame hbc ▸ hd)
  word i hi := h.word i (issued_of_frame hf hi)
  older i j hi hj := h.older i j (issued_of_frame hf hi) (issued_of_frame hf hj)

theorem Part.evolves (h : Part e A ρ) (he : Evolves e e') : Part e' A ρ := h.of_frame he.frame

namespace WellFormed

theorem part_dependents (he : e.WellFormed) (hp : Part e A ρ) (hc : c ∈ e.clues) {i : ClueId}
    (hi : i ∈ c.dependents) : A i ↔ A c.id := by
  obtain ⟨d, hd, rfl, hcd⟩ := (he.dependents c hc i).1 hi
  exact (hp.closed d hd c.id hcd).symm

theorem slot_rename_iff (he : e.WellFormed) (hp : Part e A ρ) {i j : ClueId} (hi : e.Issued i)
    (hj : e.Issued j) (hAi : A i) (hAj : A j) : (ρ i).slot = (ρ j).slot ↔ i.slot = j.slot := by
  constructor
  · intro hs
    rcases Nat.lt_trichotomy i.slot j.slot with hlt | heq | hgt
    · exact absurd hs (Nat.ne_of_lt (hp.older i j hi hj hAi hAj hlt))
    · exact heq
    · exact absurd hs (Nat.ne_of_gt (hp.older j i hj hi hAj hAi hgt))
  · intro hs
    rw [he.slot_inj hi hj hs]

theorem rename_inj (he : e.WellFormed) (hp : Part e A ρ) {i j : ClueId} (hi : e.Issued i)
    (hj : e.Issued j) (hAi : A i) (hAj : A j) (h : ρ i = ρ j) : i = j :=
  he.slot_inj hi hj ((he.slot_rename_iff hp hi hj hAi hAj).1 (congrArg Allocation.slot h))

theorem slot_ne_of_outside (he : e.WellFormed) {i j : ClueId} (hi : e.Issued i) (hj : e.Issued j)
    (hAi : ¬ A i) (hAj : A j) : i.slot ≠ j.slot := by
  intro hs
  rw [he.slot_inj hi hj hs] at hAi
  exact hAi hAj

end WellFormed

theorem Mirrors.at?_rename (h : Mirrors A ρ e f) (hat : e.at? c.id = some c) (hA : A c.id) :
    f.at? (ρ c.id) = some (c.rename ρ) := by
  rw [h.clue c.id ⟨c, List.mem_of_getElem? hat, rfl⟩ hA, hat]
  rfl

/-! ### Taking the oldest clue -/

theorem slot_lt_of_compare {i j : ClueId} (h : compare i j = .lt) (hne : i.slot ≠ j.slot) :
    i.slot < j.slot := by
  rcases Nat.lt_trichotomy i.slot j.slot with hlt | heq | hgt
  · exact hlt
  · exact absurd heq hne
  · have hs : j.serial < i.serial := by
      simp only [Allocation.slot] at hgt
      omega
    have hg := Std.OrientedCmp.gt_of_lt h
    rw [compare_lt_of_serial hs] at hg
    cases hg

theorem compare_lt_of_slot {i j : ClueId} (h : i.slot < j.slot) : compare i j = .lt := by
  apply compare_lt_of_serial
  simp only [Allocation.slot] at h
  omega

theorem Mirrors.pop (he : e.WellFormed) (hp : Part e A ρ) (h : Mirrors A ρ e f) {i : ClueId}
    {rest : OrderedSet ClueId} (hpop : e.pending.popLeast? = some (i, rest)) (hA : A i) :
    ∃ rest', f.pending.popLeast? = some (ρ i, rest') ∧
      Mirrors A ρ { e with pending := rest } { f with pending := rest' } := by
  have hmem : i ∈ e.pending := (OrderedSet.mem_of_popLeast? hpop).2 (.inl rfl)
  have hi := he.pending i hmem
  have hleast : ∀ x ∈ f.pending, x = ρ i ∨ compare (ρ i) x = .lt := by
    intro x hx
    obtain ⟨j, hj, hAj, rfl⟩ := (h.pending x).1 hx
    rcases (OrderedSet.mem_of_popLeast? hpop).1 hj with rfl | hrest
    · exact .inl rfl
    · have hjs := he.pending j hj
      have hne : i.slot ≠ j.slot := by
        intro hs
        cases he.slot_inj hi hjs hs
        exact ((OrderedSet.mem_rest_of_popLeast? hpop).1 hrest).2 rfl
      have hlt := slot_lt_of_compare (OrderedSet.lt_of_popLeast? hpop hrest) hne
      exact .inr (compare_lt_of_slot (hp.older i j hi hjs hA hAj hlt))
  obtain ⟨rest', hpop'⟩ :=
    OrderedSet.popLeast?_of_least ((h.pending (ρ i)).2 ⟨i, hmem, hA, rfl⟩) hleast
  refine ⟨rest', hpop', h.policy, h.rules, h.clue, fun x => ?_⟩
  rw [OrderedSet.mem_rest_of_popLeast? hpop', h.pending]
  constructor
  · rintro ⟨⟨j, hj, hAj, rfl⟩, hne⟩
    exact ⟨j, (OrderedSet.mem_rest_of_popLeast? hpop).2 ⟨hj, fun h => hne (h ▸ rfl)⟩, hAj, rfl⟩
  · rintro ⟨j, hj, hAj, rfl⟩
    obtain ⟨hj, hne⟩ := (OrderedSet.mem_rest_of_popLeast? hpop).1 hj
    exact ⟨⟨j, hj, hAj, rfl⟩, fun h => hne (he.rename_inj hp (he.pending j hj) hi hAj hA h)⟩

theorem Mirrors.pop_outside (h : Mirrors A ρ e f) {i : ClueId} {rest : OrderedSet ClueId}
    (hpop : e.pending.popLeast? = some (i, rest)) (hA : ¬ A i) :
    Mirrors A ρ { e with pending := rest } f := by
  refine ⟨h.policy, h.rules, h.clue, fun x => ?_⟩
  rw [h.pending]
  constructor
  · rintro ⟨j, hj, hAj, rfl⟩
    exact ⟨j, (OrderedSet.mem_rest_of_popLeast? hpop).2 ⟨hj, fun h => hA (h ▸ hAj)⟩, hAj, rfl⟩
  · rintro ⟨j, hj, hAj, rfl⟩
    exact ⟨j, ((OrderedSet.mem_rest_of_popLeast? hpop).1 hj).1, hAj, rfl⟩

/-! ### Storing types and errors -/

theorem mem_pending_refine {id i : ClueId} {q : Qualified} :
    i ∈ (e.refine id q).1.pending ↔
      i ∈ e.pending ∨ ∃ c, e.at? id = some c ∧ ¬ c.type.Equivalent q ∧ i ∈ c.dependents := by
  rw [refine]
  cases e.at? id with
  | none => simp
  | some c =>
    by_cases hq : c.type.Equivalent q
    · simp [hq]
    · simp [hq]

theorem Mirrors.refine (he : e.WellFormed) (hp : Part e A ρ) (h : Mirrors A ρ e f) {id : ClueId}
    (hid : e.Issued id) (hA : A id) (q : Qualified) :
    Mirrors A ρ (e.refine id q).1 (f.refine (ρ id) q).1 := by
  have hv := evolves_refine (e := e) id q
  have hv' := evolves_refine (e := f) (ρ id) q
  constructor
  case policy => rw [hv'.policy, hv.policy, h.policy]
  case rules => rw [hv'.rules, hv.rules, h.rules]
  case clue =>
    intro j hj hAj
    rw [hv.issued_iff] at hj
    rw [at?_refine, at?_refine, h.clue j hj hAj]
    simp only [he.slot_rename_iff hp hid hj hA hAj]
    split
    · rw [Option.map_map, Option.map_map]
      congr 1
      funext c
      exact (Clue.rename_learn q).symm
    · rfl
  case pending =>
    intro i
    obtain ⟨c, hc, rfl⟩ := hid
    have hat := h.at?_rename (he.at?_of_mem hc) hA
    have hdep : i ∈ (c.rename ρ).dependents ↔ ∃ j ∈ c.dependents, A j ∧ ρ j = i := by
      rw [Clue.mem_dependents_rename]
      refine exists_congr fun j => and_congr_right fun hj => ?_
      simp [(he.part_dependents hp hc hj).2 hA]
    have hq : (c.rename ρ).type.Equivalent q ↔ c.type.Equivalent q := Iff.rfl
    simp only [mem_pending_refine, hat, he.at?_of_mem hc, Option.some.injEq, exists_eq_left', h.pending,
      hdep, hq]
    grind

theorem Mirrors.refine_outside (he : e.WellFormed) (hp : Part e A ρ) (h : Mirrors A ρ e f)
    {id : ClueId} (hid : e.Issued id) (hA : ¬ A id) (q : Qualified) :
    Mirrors A ρ (e.refine id q).1 f := by
  have hv := evolves_refine (e := e) id q
  constructor
  case policy => rw [hv.policy, h.policy]
  case rules => rw [hv.rules, h.rules]
  case clue =>
    intro j hj hAj
    rw [hv.issued_iff] at hj
    rw [at?_refine, if_neg (he.slot_ne_of_outside hid hj hA hAj), h.clue j hj hAj]
  case pending =>
    intro i
    obtain ⟨c, hc, rfl⟩ := hid
    have hdep : ∀ j ∈ c.dependents, ¬ A j := fun j hj hAj => hA ((he.part_dependents hp hc hj).1 hAj)
    simp only [mem_pending_refine, he.at?_of_mem hc, Option.some.injEq, exists_eq_left', h.pending]
    grind

/-- Of the types that are stored, those on the part are stored in the mirror. -/
theorem Mirrors.refineAll [DecidablePred A] (he : e.WellFormed) (hp : Part e A ρ)
    (h : Mirrors A ρ e f) {l : List (ClueId × Qualified)} (hl : ∀ x ∈ l, e.Issued x.1) :
    Mirrors A ρ (Engine.refineAll l e).1
      (Engine.refineAll ((l.filter fun x => A x.1).map (Prod.map ρ id)) f).1 := by
  induction l generalizing e f with
  | nil => exact h
  | cons x l ih =>
    have hx := hl x List.mem_cons_self
    have hv := evolves_refine (e := e) x.1 x.2
    have hl' : ∀ y ∈ l, (e.refine x.1 x.2).1.Issued y.1 :=
      fun y hy => hv.issued_iff.2 (hl y (List.mem_cons_of_mem x hy))
    by_cases hA : A x.1
    · rw [List.filter_cons_of_pos (by simpa using hA)]
      exact ih (he.evolves hv) (hp.evolves hv) (h.refine he hp hx hA x.2) hl'
    · rw [List.filter_cons_of_neg (by simpa using hA)]
      exact ih (he.evolves hv) (hp.evolves hv) (h.refine_outside he hp hx hA x.2) hl'

theorem Mirrors.addErrors (he : e.WellFormed) (hp : Part e A ρ) (h : Mirrors A ρ e f) {id : ClueId}
    (hid : e.Issued id) (hA : A id) (ds : List (Diagnostic σ)) :
    Mirrors A ρ (e.addErrors id ds) (f.addErrors (ρ id) (ds.map (Diagnostic.rename ρ))) := by
  refine ⟨h.policy, h.rules, fun j hj hAj => ?_, h.pending⟩
  rw [(evolves_addErrors id ds).issued_iff] at hj
  rw [at?_addErrors, at?_addErrors, h.clue j hj hAj]
  simp only [he.slot_rename_iff hp hid hj hA hAj]
  split
  · rw [Option.map_map, Option.map_map]
    congr 1
    funext c
    simp [Clue.rename]
  · rfl

theorem Mirrors.addErrors_outside (he : e.WellFormed) (h : Mirrors A ρ e f) {id : ClueId}
    (hid : e.Issued id) (hA : ¬ A id) (ds : List (Diagnostic σ)) :
    Mirrors A ρ (e.addErrors id ds) f := by
  refine ⟨h.policy, h.rules, fun j hj hAj => ?_, h.pending⟩
  rw [(evolves_addErrors id ds).issued_iff] at hj
  rw [at?_addErrors, if_neg (he.slot_ne_of_outside hid hj hA hAj), h.clue j hj hAj]

/-! ### Looking at a clue -/

theorem Mirrors.hasError (h : Mirrors A ρ e f) {j : ClueId} (hj : e.Issued j) (hA : A j) :
    f.hasError (ρ j) = e.hasError j := by
  rw [Engine.hasError, Engine.hasError, h.clue j hj hA, Option.any_map]
  congr 1
  funext c
  exact Clue.hasError_rename

theorem Mirrors.invoke (he : e.WellFormed) (hp : Part e A ρ) (h : Mirrors A ρ e f) (r : Rule κ)
    {ts : List ClueId} (ht : ∀ t ∈ ts, e.Issued t ∧ A t) :
    (f.invoke r (ts.map ρ)).1 = (e.invoke r ts).1 := by
  have hf : ((ts.map ρ).filterMap f.at?).map Clue.face = (ts.filterMap e.at?).map Clue.face := by
    rw [List.filterMap_map, List.map_filterMap, List.map_filterMap]
    apply List.filterMap_congr
    intro t hts
    obtain ⟨⟨c, hc, rfl⟩, hA⟩ := ht t hts
    rw [Function.comp_apply, h.at?_rename (he.at?_of_mem hc) hA, he.at?_of_mem hc]
    exact congrArg some (Clue.face_rename (hp.word c.id ⟨c, hc, rfl⟩ hA))
  rw [Engine.invoke, Engine.invoke, h.policy]
  exact (Workspace.run_new_of_face e.policy r.script hf).1

theorem Part.targets_iff (hp : Part e A ρ) (hc : c ∈ e.clues) {t : ClueId} (ht : t ∈ c.targets) :
    A t ↔ A c.id := by
  rcases List.mem_cons.1 ht with rfl | ht
  · exact Iff.rfl
  · exact hp.closed c hc t ht

theorem Visit.part_targets (he : e.WellFormed) (hp : Part e A ρ) (hv : Visit e c rs m) {t : ClueId}
    (ht : t ∈ c.targets) : m.Issued t ∧ (A t ↔ A c.id) :=
  ⟨hv.evolves.issued_iff.2 (hv.issued he ht), hp.targets_iff (List.mem_of_getElem? hv.at?_self) ht⟩

theorem Visit.invoke_mirror (he : e.WellFormed) (hp : Part e A ρ) (hA : A c.id)
    (hv : Visit e c rs m) (hm : Mirrors A ρ m m') (r : Rule κ) :
    (m'.invoke r (c.rename ρ).targets).1 = (m.invoke r c.targets).1 := by
  rw [Clue.targets_rename]
  apply hm.invoke (he.evolves hv.evolves) (hp.evolves hv.evolves)
  intro t ht
  obtain ⟨hi, hAt⟩ := hv.part_targets he hp ht
  exact ⟨hi, hAt.2 hA⟩

/-- A visit inside the part is the same visit in the mirror. -/
theorem Visit.mirrors [DecidablePred A] (he : e.WellFormed) (hp : Part e A ρ) (h : Mirrors A ρ e f)
    (hA : A c.id) (hv : Visit e c rs m) : ∃ m', Visit f (c.rename ρ) rs m' ∧ Mirrors A ρ m m' := by
  induction hv with
  | start hpop hat hn hd =>
    have hc : c ∈ e.clues := List.mem_of_getElem? hat
    obtain ⟨rest', hpop', hm⟩ := h.pop he hp hpop hA
    refine ⟨_, h.rules ▸ .start hpop' (h.at?_rename hat hA) (by simpa using hn) ?_, hm⟩
    intro d' hd'
    obtain ⟨d, hdep, rfl⟩ := List.mem_map.1 hd'
    rw [h.hasError (he.dependencies c hc d hdep).1 ((hp.closed c hc d hdep).2 hA)]
    exact hd d hdep
  | pass hv hr ih =>
    obtain ⟨m', hv', hm⟩ := ih
    exact ⟨m', hv'.pass ((hv.invoke_mirror he hp hA hm _).trans hr), hm⟩
  | @store m r rs types hv hr ih =>
    obtain ⟨m', hv', hm⟩ := ih
    refine ⟨_, hv'.store ((hv.invoke_mirror he hp hA hm r).trans hr), ?_⟩
    have hz : ∀ x ∈ c.targets.zip types, m.Issued x.1 ∧ (A x.1 ↔ A c.id) :=
      fun x hx => hv.part_targets he hp (List.of_mem_zip hx).1
    have hm := hm.refineAll (he.evolves hv.evolves) (hp.evolves hv.evolves) fun x hx => (hz x hx).1
    rw [List.filter_eq_self.2 fun x hx => by simpa using (hz x hx).2.2 hA] at hm
    rwa [Clue.targets_rename, List.zip_map_left]

theorem Visit.mirrors_outside [DecidablePred A] (he : e.WellFormed) (hp : Part e A ρ)
    (h : Mirrors A ρ e f) (hA : ¬ A c.id) (hv : Visit e c rs m) : Mirrors A ρ m f := by
  induction hv with
  | start hpop hat hn hd => exact h.pop_outside hpop hA
  | pass _ _ ih => exact ih
  | @store m r rs types hv _ ih =>
    have hz : ∀ x ∈ c.targets.zip types, m.Issued x.1 ∧ (A x.1 ↔ A c.id) :=
      fun x hx => hv.part_targets he hp (List.of_mem_zip hx).1
    have hm := ih.refineAll (he.evolves hv.evolves) (hp.evolves hv.evolves) fun x hx => (hz x hx).1
    rwa [List.filter_eq_nil_iff.2 fun x hx => by simpa using mt (hz x hx).2.1 hA] at hm

theorem Mirrors.inherited (he : e.WellFormed) (hp : Part e A ρ) (h : Mirrors A ρ e f)
    (hc : c ∈ e.clues) (hA : A c.id) :
    (c.rename ρ).dependencies.filter f.hasError = (c.dependencies.filter e.hasError).map ρ := by
  have hd : (c.rename ρ).dependencies = c.dependencies.map ρ := rfl
  rw [hd, List.filter_map]
  congr 1
  apply List.filter_congr
  intro d hdep
  exact h.hasError (he.dependencies c hc d hdep).1 ((hp.closed c hc d hdep).2 hA)

theorem Look.mirrors [DecidablePred A] (he : e.WellFormed) (hp : Part e A ρ) (h : Mirrors A ρ e f)
    (hA : A c.id) (hl : Look e c e') : ∃ f', Look f (c.rename ρ) f' ∧ Mirrors A ρ e' f' := by
  cases hl with
  | skip hpop hat hn =>
    obtain ⟨rest', hpop', hm⟩ := h.pop he hp hpop hA
    exact ⟨_, .skip hpop' (h.at?_rename hat hA) (by simpa using hn), hm⟩
  | inherit hpop hat hn hd =>
    have hc : c ∈ e.clues := List.mem_of_getElem? hat
    obtain ⟨rest', hpop', hm⟩ := h.pop he hp hpop hA
    have hf := h.inherited he hp hc hA
    refine ⟨_, .inherit hpop' (h.at?_rename hat hA) (by simpa using hn) (by simpa [hf] using hd), ?_⟩
    have hv := evolves_pop hpop
    have hm := hm.addErrors (he.evolves hv) (hp.evolves hv) (hv.issued_iff.2 ⟨c, hc, rfl⟩) hA
      ((c.dependencies.filter e.hasError).map .inherited)
    rw [List.map_map] at hm
    rw [hf, List.map_map]
    exact hm
  | finish hv =>
    obtain ⟨m', hv', hm⟩ := hv.mirrors he hp h hA
    exact ⟨m', .finish hv', hm⟩
  | @fail m r rs d hv hr =>
    obtain ⟨m', hv', hm⟩ := hv.mirrors he hp h hA
    refine ⟨_, .fail hv' ((hv.invoke_mirror he hp hA hm r).trans hr), ?_⟩
    obtain ⟨message, culpable, rfl⟩ := Workspace.exists_reported_of_failed hr
    have hi := (hv.part_targets he hp List.mem_cons_self).1
    exact hm.addErrors (he.evolves hv.evolves) (hp.evolves hv.evolves) hi hA [.reported message culpable]

theorem Look.mirrors_outside [DecidablePred A] (he : e.WellFormed) (hp : Part e A ρ)
    (h : Mirrors A ρ e f) (hA : ¬ A c.id) (hl : Look e c e') : Mirrors A ρ e' f := by
  cases hl with
  | skip hpop hat hn => exact h.pop_outside hpop hA
  | inherit hpop hat hn hd =>
    have hv := evolves_pop hpop
    have hi : e.Issued c.id := ⟨c, List.mem_of_getElem? hat, rfl⟩
    exact (h.pop_outside hpop hA).addErrors_outside (he.evolves hv) (hv.issued_iff.2 hi) hA _
  | finish hv => exact hv.mirrors_outside he hp h hA
  | fail hv hr =>
    have hi := (hv.part_targets he hp List.mem_cons_self).1
    exact (hv.mirrors_outside he hp h hA).addErrors_outside (he.evolves hv.evolves) hi hA _

/-- A step inside the part is a step of the mirror, and a step outside of it is none. -/
theorem Mirrors.step [DecidablePred A] (he : e.WellFormed) (hp : Part e A ρ) (h : Mirrors A ρ e f)
    (hs : Step e e') : ∃ f', Steps f f' ∧ Mirrors A ρ e' f' := by
  obtain ⟨es, hs⟩ := hs
  obtain ⟨c, hl⟩ := he.look_of_step? hs
  by_cases hA : A c.id
  · obtain ⟨f', hl', hm⟩ := hl.mirrors he hp h hA
    exact ⟨f', .single hl'.step, hm⟩
  · exact ⟨f, .refl, hl.mirrors_outside he hp h hA⟩

/-- The steps of an engine, as far as they are about the part, are the steps of the mirror. -/
theorem Mirrors.steps [DecidablePred A] (he : e.WellFormed) (hp : Part e A ρ) (h : Mirrors A ρ e f)
    (hs : Steps e e') : ∃ f', Steps f f' ∧ Mirrors A ρ e' f' := by
  induction hs with
  | refl => exact ⟨f, .refl, h⟩
  | tail hs hstep ih =>
    obtain ⟨f₁, hs₁, hm₁⟩ := ih
    have hv := evolves_steps hs
    obtain ⟨f₂, hs₂, hm₂⟩ := hm₁.step (he.evolves hv) (hp.evolves hv) hstep
    exact ⟨f₂, hs₁.trans hs₂, hm₂⟩

end Engine
end TypeClues
