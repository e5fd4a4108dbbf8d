import TypeClues.Proofs.Engine.Parts
import TypeClues.Proofs.Engine.Storing
import TypeClues.Proofs.Engine.Wakeups

/-!
# What one look can change

A step looks at one clue. It writes errors on this clue only and types on this clue and its
dependencies only. Whenever the type of a clue changes on the way, all dependents of the clue become
pending, and nothing else does. Rules that have already stored their types are not taken back when a
later rule fails, so this counts every change that happens in between and not only what is left of
them in the end.
-/
namespace TypeClues

theorem Clue.type_learn_eq_iff {σ κ : Type} {c : Clue σ κ} {q : Qualified} :
    (c.learn q).type = c.type ↔ c.type.Equivalent q := by
  by_cases hq : c.type.Equivalent q
  · simp [learn, hq]
  · simp only [learn, hq, if_false, iff_false]
    intro ht
    apply hq
    rw [← ht]
    exact q.canonical_canonical

namespace Engine
variable {σ κ : Type} {e e' m : Engine σ κ} {c : Clue σ κ} {rs : List (Rule κ)} {id j : ClueId}
  {q : Qualified} {l : List (ClueId × Qualified)}

/-! ## Changes at one place -/

theorem WellFormed.find?_of_at? (he : e.WellFormed) (hid : e.Issued id)
    {f : Clue σ κ → Clue σ κ} (hf : ∀ c, (f c).id = c.id)
    (hat : ∀ j, e'.at? j = if id.slot = j.slot then (e.at? j).map f else e.at? j) (j : ClueId) :
    e'.find? j = if j = id then (e.find? j).map f else e.find? j := by
  by_cases hs : id.slot = j.slot
  · rcases hid with ⟨c, hc, rfl⟩
    have hj : e.at? j = some c := by rw [at?, ← hs, ← at?, he.at?_of_mem hc]
    by_cases hjc : j = c.id
    · have hfind : e.find? j = some c := find?_eq_some_iff.2 ⟨hj, hjc.symm⟩
      rw [if_pos hjc, hfind, Option.map_some, find?_eq_some_iff, hat, if_pos hs, hj, hf]
      exact ⟨rfl, hjc.symm⟩
    · simp [find?, hat, hs, hj, hf, hjc, Ne.symm hjc, Option.filter_some]
  · have hne : j ≠ id := by
      rintro rfl
      exact hs rfl
    simp [find?, hat, hs, hne]

theorem WellFormed.find?_refine (he : e.WellFormed) (hid : e.Issued id) (q : Qualified)
    (j : ClueId) :
    (e.refine id q).1.find? j = if j = id then (e.find? j).map (·.learn q) else e.find? j := by
  apply he.find?_of_at? hid
  · intro c
    rw [Clue.learn]
    split <;> rfl
  · exact fun j => at?_refine id j q

theorem WellFormed.find?_addErrors (he : e.WellFormed) (hid : e.Issued id)
    (ds : List (Diagnostic σ)) (j : ClueId) :
    (e.addErrors id ds).find? j =
      if j = id then (e.find? j).map (fun c => { c with errors := c.errors ++ ds })
      else e.find? j := by
  apply he.find?_of_at? hid
  · exact fun c => rfl
  · exact fun j => at?_addErrors id j ds

/-- The clues with these ids may have other types; all else about clues is the same. -/
structure Retypes (ids : List ClueId) (e e' : Engine σ κ) : Prop where
  evolves : Evolves e e'
  errors : ∀ j, (e'.find? j).map Clue.errors = (e.find? j).map Clue.errors
  types : ∀ j ∉ ids, (e'.find? j).map Clue.type = (e.find? j).map Clue.type

theorem Retypes.refl (ids : List ClueId) (e : Engine σ κ) : Retypes ids e e :=
  ⟨.refl e, fun _ => rfl, fun _ _ => rfl⟩

theorem Retypes.trans {ids : List ClueId} (h : Retypes ids e e') (h' : Retypes ids e' m) :
    Retypes ids e m :=
  ⟨h.evolves.trans h'.evolves, fun j => (h'.errors j).trans (h.errors j),
    fun j hj => (h'.types j hj).trans (h.types j hj)⟩

theorem WellFormed.retypes_refine (he : e.WellFormed) {ids : List ClueId} (hid : e.Issued id)
    (hm : id ∈ ids) (q : Qualified) : Retypes ids e (e.refine id q).1 := by
  refine ⟨evolves_refine id q, fun j => ?_, fun j hj => ?_⟩
  · rw [he.find?_refine hid]
    split
    · rw [Option.map_map]
      congr 1
      funext c
      by_cases hq : c.type.Equivalent q <;> simp [Clue.learn, hq]
    · rfl
  · have hne : j ≠ id := fun h => hj (h ▸ hm)
    rw [he.find?_refine hid, if_neg hne]

theorem WellFormed.retypes_refineAll (he : e.WellFormed) {ids : List ClueId}
    (hl : ∀ x ∈ l, e.Issued x.1 ∧ x.1 ∈ ids) : Retypes ids e (refineAll l e).1 := by
  induction l generalizing e with
  | nil => exact .refl ids e
  | cons x l ih =>
    have hx := hl x List.mem_cons_self
    have hr := he.retypes_refine hx.1 hx.2 x.2
    apply hr.trans
    apply ih (he.evolves hr.evolves)
    intro y hy
    rw [hr.evolves.issued_iff]
    exact hl y (List.mem_cons_of_mem x hy)

/-! ## Types that change on the way -/

/-- The engine takes up candidates one after the other, and with one of them the type of the clue
becomes another one. -/
def Changes (l : List (ClueId × Qualified)) (e : Engine σ κ) (j : ClueId) : Prop :=
  ∃ before x after, l = before ++ x :: after ∧
    ((refineAll (before ++ [x]) e).1.find? j).map Clue.type ≠
      ((refineAll before e).1.find? j).map Clue.type

theorem changes_cons {x : ClueId × Qualified} :
    Changes (x :: l) e j ↔
      ((e.refine x.1 x.2).1.find? j).map Clue.type ≠ (e.find? j).map Clue.type ∨
        Changes l (e.refine x.1 x.2).1 j := by
  constructor
  · rintro ⟨before, y, after, hl, hne⟩
    cases before with
    | nil =>
      cases hl
      exact .inl hne
    | cons b before =>
      cases hl
      exact .inr ⟨before, y, after, rfl, hne⟩
  · rintro (hne | ⟨before, y, after, rfl, hne⟩)
    · exact ⟨[], x, l, rfl, hne⟩
    · exact ⟨x :: before, y, after, rfl, hne⟩

theorem WellFormed.type_refine_ne_iff (he : e.WellFormed) (hid : e.Issued id) :
    ((e.refine id q).1.find? j).map Clue.type ≠ (e.find? j).map Clue.type ↔
      j = id ∧ ∃ d, e.at? id = some d ∧ ¬ d.type.Equivalent q := by
  rw [he.find?_refine hid]
  by_cases hj : j = id
  · subst hj
    rcases hid with ⟨d, hd, rfl⟩
    have hat := he.at?_of_mem hd
    have hfind : e.find? d.id = some d := find?_eq_some_iff.2 ⟨hat, rfl⟩
    simp [hfind, hat, Clue.type_learn_eq_iff]
  · simp [hj]

theorem Evolves.dependents_find? (h : Evolves e e') (j : ClueId) :
    (e'.find? j).map Clue.dependents = (e.find? j).map Clue.dependents := by
  have hframe (o : Option (Clue σ κ)) : (o.filter fun c => c.id = j).map Clue.dependents =
      ((o.map Clue.frame).filter fun c => c.id = j).map Clue.dependents := by
    cases o with
    | none => rfl
    | some c => by_cases hc : c.id = j <;> simp [Option.filter_some, hc, Clue.frame]
  rw [find?, find?, hframe (e'.at? j), hframe (e.at? j), h.at?_frame]

theorem WellFormed.mem_pending_refine_iff (he : e.WellFormed) (hid : e.Issued id) (q : Qualified)
    {i : ClueId} :
    i ∈ (e.refine id q).1.pending ↔ i ∈ e.pending ∨
      ∃ j, ((e.refine id q).1.find? j).map Clue.type ≠ (e.find? j).map Clue.type ∧
        ∃ ds ∈ (e.find? j).map Clue.dependents, i ∈ ds := by
  rcases hid with ⟨d, hd, rfl⟩
  have hat := he.at?_of_mem hd
  have hfind : e.find? d.id = some d := find?_eq_some_iff.2 ⟨hat, rfl⟩
  simp only [mem_pending_refine, he.type_refine_ne_iff ⟨d, hd, rfl⟩]
  simp [hat, hfind]

/-- Whoever depends on a clue whose type changes on the way is woken, and nobody else. -/
theorem WellFormed.mem_pending_refineAll_iff (he : e.WellFormed) (hl : ∀ x ∈ l, e.Issued x.1)
    {i : ClueId} :
    i ∈ (refineAll l e).1.pending ↔ i ∈ e.pending ∨
      ∃ j, Changes l e j ∧ ∃ ds ∈ (e.find? j).map Clue.dependents, i ∈ ds := by
  induction l generalizing e with
  | nil => simp [refineAll, Changes]
  | cons x l ih =>
    have hv := evolves_refine (e := e) x.1 x.2
    have hr : (refineAll (x :: l) e).1 = (refineAll l (e.refine x.1 x.2).1).1 := rfl
    have hl' : ∀ y ∈ l, (e.refine x.1 x.2).1.Issued y.1 := by
      intro y hy
      rw [hv.issued_iff]
      exact hl y (List.mem_cons_of_mem x hy)
    rw [hr, ih (he.evolves hv) hl', he.mem_pending_refine_iff (hl x List.mem_cons_self)]
    simp only [changes_cons, hv.dependents_find?, or_and_right, exists_or, or_assoc]

/-- At some moment of the look at `c` the type of a clue becomes another one. -/
inductive Overwritten (e : Engine σ κ) (c : Clue σ κ) (j : ClueId) : Prop where
  | intro {m : Engine σ κ} {r : Rule κ} {rs : List (Rule κ)} {types : List Qualified}
      (h : Visit e c (r :: rs) m) (hv : (m.invoke r c.targets).1 = .refined types)
      (hj : Changes (c.targets.zip types) m j) : Overwritten e c j

theorem Visit.issued_zip (he : e.WellFormed) (h : Visit e c rs m) (types : List Qualified) :
    ∀ x ∈ c.targets.zip types, m.Issued x.1 ∧ x.1 ∈ c.targets := by
  intro x hx
  have ht := (List.of_mem_zip hx).1
  exact ⟨h.evolves.issued_iff.2 (h.issued he ht), ht⟩

theorem Visit.retypes (he : e.WellFormed) (h : Visit e c rs m) : Retypes c.targets e m := by
  induction h with
  | start hp hc hn hd => exact ⟨evolves_pop hp, fun _ => rfl, fun _ _ => rfl⟩
  | pass _ _ ih => exact ih
  | store h hv ih =>
    apply ih.trans
    exact (he.evolves h.evolves).retypes_refineAll (h.issued_zip he _)

theorem Visit.mem_pending (he : e.WellFormed) (h : Visit e c rs m) {rest : OrderedSet ClueId}
    (hp : e.pending.popLeast? = some (c.id, rest)) {i : ClueId} (hi : i ∈ m.pending) :
    i ∈ rest ∨ ∃ j, Overwritten e c j ∧ ∃ ds ∈ (e.find? j).map Clue.dependents, i ∈ ds := by
  induction h with
  | start hp' hc hn hd =>
    rw [hp] at hp'
    cases hp'
    exact .inl hi
  | pass _ _ ih => exact ih hi
  | @store _ _ _ types h hv ih =>
    have hz := h.issued_zip he types
    rw [(he.evolves h.evolves).mem_pending_refineAll_iff fun x hx => (hz x hx).1] at hi
    rcases hi with hi | ⟨j, hj, hds⟩
    · exact ih hi
    · rw [h.evolves.dependents_find?] at hds
      exact .inr ⟨j, .intro h hv hj, hds⟩

/-- The wake-ups of a visit outlast it. -/
theorem Overwritten.mem_pending (he : e.WellFormed) (h : Overwritten e c j) (hs : Step e e')
    {i : ClueId} (hi : ∃ ds ∈ (e.find? j).map Clue.dependents, i ∈ ds) : i ∈ e'.pending := by
  rcases h with @⟨m, r, rs, types, h, hv, hj⟩
  have hm := he.evolves h.evolves
  have hz := h.issued_zip he types
  have hstep := h.step
  rw [runRules_of_refined hv] at hstep
  rw [hs.unique hstep]
  have hstore := hm.retypes_refineAll hz
  have hwoken : i ∈ (refineAll (c.targets.zip types) m).1.pending := by
    rw [hm.mem_pending_refineAll_iff fun x hx => (hz x hx).1]
    refine .inr ⟨j, hj, ?_⟩
    rwa [h.evolves.dependents_find?]
  apply ((hm.evolves hstore.evolves).wakes_runRules c.id _ rs).pending i hwoken
  intro t ht
  rw [hstore.evolves.issued_iff, h.evolves.issued_iff]
  exact h.issued he ht

theorem Visit.popped (h : Visit e c rs m) : ∃ rest, e.pending.popLeast? = some (c.id, rest) := by
  induction h with
  | start hp hc hn hd => exact ⟨_, hp⟩
  | pass _ _ ih => exact ih
  | store _ _ ih => exact ih

theorem WellFormed.retypes_of_addErrors (he : e.WellFormed) (hm : Retypes c.targets e m)
    (hid : e.Issued c.id) (ds : List (Diagnostic σ)) :
    (∀ j, j ≠ c.id →
      ((m.addErrors c.id ds).find? j).map Clue.errors = (e.find? j).map Clue.errors) ∧
    ∀ j ∉ c.targets, ((m.addErrors c.id ds).find? j).map Clue.type = (e.find? j).map Clue.type := by
  have hfind := (he.evolves hm.evolves).find?_addErrors (hm.evolves.issued_iff.2 hid) ds
  constructor
  · intro j hj
    rw [hfind, if_neg hj, hm.errors]
  · intro j hj
    have hne : j ≠ c.id := fun h => hj (h ▸ List.mem_cons_self)
    rw [hfind, if_neg hne, hm.types j hj]

/-- The errors of one clue, and the types of this clue and its dependencies. -/
theorem Look.errors_and_types (he : e.WellFormed) (h : Look e c e') :
    (∀ j, j ≠ c.id → (e'.find? j).map Clue.errors = (e.find? j).map Clue.errors) ∧
    ∀ j ∉ c.targets, (e'.find? j).map Clue.type = (e.find? j).map Clue.type := by
  cases h with
  | skip hp hc hn => exact ⟨fun _ _ => rfl, fun _ _ => rfl⟩
  | inherit hp hc hn hd =>
    apply he.retypes_of_addErrors (c := c)
    · exact ⟨evolves_pop hp, fun _ => rfl, fun _ _ => rfl⟩
    · exact ⟨c, List.mem_of_getElem? hc, rfl⟩
  | finish h =>
    have hm := h.retypes he
    exact ⟨fun j _ => hm.errors j, hm.types⟩
  | fail h hv =>
    apply he.retypes_of_addErrors (h.retypes he)
    exact h.issued he List.mem_cons_self

theorem Look.popped (h : Look e c e') :
    ∃ rest, e.pending.popLeast? = some (c.id, rest) ∧ e.find? c.id = some c := by
  have visited {rs : List (Rule κ)} {m : Engine σ κ} (h : Visit e c rs m) :
      ∃ rest, e.pending.popLeast? = some (c.id, rest) ∧ e.find? c.id = some c := by
    rcases h.popped with ⟨rest, hp⟩
    exact ⟨rest, hp, find?_eq_some_iff.2 ⟨h.at?_self, rfl⟩⟩
  cases h with
  | skip hp hc hn => exact ⟨_, hp, find?_eq_some_iff.2 ⟨hc, rfl⟩⟩
  | inherit hp hc hn hd => exact ⟨_, hp, find?_eq_some_iff.2 ⟨hc, rfl⟩⟩
  | finish h => exact visited h
  | fail h hv => exact visited h

theorem Look.mem_pending (he : e.WellFormed) (h : Look e c e') {rest : OrderedSet ClueId}
    (hp : e.pending.popLeast? = some (c.id, rest)) {i : ClueId} (hi : i ∈ e'.pending) :
    i ∈ rest ∨ ∃ j, Overwritten e c j ∧ ∃ ds ∈ (e.find? j).map Clue.dependents, i ∈ ds := by
  cases h with
  | skip hp' hc hn =>
    rw [hp] at hp'
    cases hp'
    exact .inl hi
  | inherit hp' hc hn hd =>
    rw [hp] at hp'
    cases hp'
    exact .inl hi
  | finish h => exact h.mem_pending he hp hi
  | fail h hv => exact h.mem_pending he hp hi

/-- One step, with any rules: it takes the oldest pending clue out. Policy, rules, the supply of ids
and all clues, types and errors apart, stay as they are. Errors can change on the clue that was
taken only, and types on this clue and its dependencies only. Afterwards those are pending that were
still pending when the clue had been taken, and the dependents of the clues whose types were
overwritten in the step. So nothing that the clue depends on, directly or not, gets an error by the
step. -/
theorem step_is_local {p : Policy} {es fs : List (Event σ κ)} (hh : History p e es)
    (hs : e.step? = some (e', fs)) :
    ∃ c rest, e.pending.popLeast? = some (c.id, rest) ∧ e.find? c.id = some c ∧
      e'.policy = e.policy ∧ e'.rules = e.rules ∧ e'.supply = e.supply ∧
      e'.clues.map Clue.frame = e.clues.map Clue.frame ∧
      (∀ j, j ≠ c.id → (e'.find? j).map Clue.errors = (e.find? j).map Clue.errors) ∧
      (∀ j ∉ c.targets, (e'.find? j).map Clue.type = (e.find? j).map Clue.type) ∧
      (∀ i, i ∈ e'.pending ↔ i ∈ rest ∨
        ∃ j, Overwritten e c j ∧ ∃ ds ∈ (e.find? j).map Clue.dependents, i ∈ ds) ∧
      ∀ d, Relation.TransGen e.DependsOn c.id d →
        (e'.find? d).map Clue.errors = (e.find? d).map Clue.errors := by
  have he := hh.wellFormed
  have hv := evolves_step? hs
  rcases he.look_of_step? hs with ⟨c, hl⟩
  rcases hl.popped with ⟨rest, hp, hc⟩
  rcases hl.errors_and_types he with ⟨herrors, htypes⟩
  refine ⟨c, rest, hp, hc, hv.policy, hv.rules, hv.supply, hv.frame, herrors, htypes, ?_, ?_⟩
  · intro i
    constructor
    · exact hl.mem_pending he hp
    · rintro (hi | ⟨j, hj, hi⟩)
      · rcases he.wakes_step hs with ⟨id, rest', gs, hp', -, hw⟩
        rw [hp] at hp'
        cases hp'
        exact hw.pending i hi
      · exact hj.mem_pending he ⟨fs, hs⟩ hi
  · intro d hd
    apply herrors
    rintro rfl
    exact Nat.lt_irrefl _ (he.older_of_dependsOn hd).2

/-- A text on a hole, and then a pin on the hole, which is faulty. -/
def faultyPin : List (Command String (Constant Unit)) :=
  [.rule pin, .rule stop, .clue "Hole" "a" nothing [], .clue "Text" "b" nothing [hole],
    .process, .clue "Pin" "c" nothing [hole]]

/-- The hole has become an integer by the time the pin fails. The error stays with the pin, and the
text, which nobody has touched, is pending because of the hole. -/
theorem step_is_local_faulty_pin :
    let text : ClueId := ⟨"Text", 1, 2⟩
    let e := (drive 5 {} faultyPin).1
    ∃ e' fs c, e.step? = some (e', fs) ∧ c.targets = [⟨"Pin", 1, 3⟩, hole] ∧
      e'.hasError ⟨"Pin", 1, 3⟩ ∧ (e'.find? hole).map Clue.errors = (e.find? hole).map Clue.errors ∧
      (e'.find? text).map Clue.type = (e.find? text).map Clue.type ∧ text ∈ e'.pending ∧
      ∃ j, Overwritten e c j ∧ ∃ ds ∈ (e.find? j).map Clue.dependents, text ∈ ds := by
  intro text e
  have hrun :
      (e.step?.map fun r => (r.1.hasError ⟨"Pin", 1, 3⟩, decide (text ∈ r.1.pending))) =
        some (true, true) ∧
      (e.pending.popLeast?.map fun x => (x.1, x.2.toList)) = some (⟨"Pin", 1, 3⟩, []) ∧
      (e.find? ⟨"Pin", 1, 3⟩).map Clue.targets = some [⟨"Pin", 1, 3⟩, hole] := by
    decide +kernel
  rcases hrun with ⟨hstep, hpop, htargets⟩
  rcases Option.map_eq_some_iff.1 hstep with ⟨⟨e', fs⟩, hs, hafter⟩
  simp only [Prod.mk.injEq, decide_eq_true_eq] at hafter
  rcases step_is_local (history_drive 5 {} faultyPin) hs with
    ⟨c, rest, hp, hc, -, -, -, -, herrors, htypes, hpending, -⟩
  rw [hp] at hpop
  simp only [Option.map_some, Option.some.injEq, Prod.mk.injEq] at hpop
  rw [hpop.1] at hc
  rw [hc] at htargets
  have ht : c.targets = [⟨"Pin", 1, 3⟩, hole] := Option.some.inj htargets
  refine ⟨e', fs, c, hs, ht, hafter.1, ?_, ?_, hafter.2, ?_⟩
  · apply herrors
    rw [hpop.1]
    decide
  · apply htypes
    rw [ht]
    decide
  · apply ((hpending text).1 hafter.2).resolve_left
    rw [OrderedSet.mem_def, hpop.2]
    exact List.not_mem_nil

end Engine
end TypeClues
