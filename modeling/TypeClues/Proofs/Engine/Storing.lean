import TypeClues.Proofs.Engine.Refinement

/-!
# Storing what a rule ends with

The types that a rule ends with are stored one after the other. A clue that stands at several places
among the targets gets several candidates, and only the last of them stays, even if an earlier one
says more. With one candidate for each clue, all of them are stored.
-/
namespace TypeClues

namespace Clue
variable {σ κ : Type}

theorem equivalent_learn (c : Clue σ κ) (q : Qualified) : (c.learn q).type.Equivalent q := by
  rw [learn]
  split
  · assumption
  · exact q.canonical_canonical

theorem equivalent_foldl_learn {qs : List Qualified} {q : Qualified} (h : qs.getLast? = some q)
    (c : Clue σ κ) : (qs.foldl learn c).type.Equivalent q := by
  obtain ⟨ps, rfl⟩ := List.getLast?_eq_some_iff.1 h
  rw [List.foldl_append]
  exact equivalent_learn _ q

end Clue

namespace Engine
variable {σ κ : Type} {e m : Engine σ κ} {c : Clue σ κ} {r : Rule κ} {rs : List (Rule κ)}
  {types : List Qualified}

/-- The clue has a type that says the same as a candidate for it. -/
def Stores (e : Engine σ κ) (x : ClueId × Qualified) : Prop :=
  ∃ d ∈ e.find? x.1, d.type.Equivalent x.2

instance (e : Engine σ κ) (x : ClueId × Qualified) : Decidable (e.Stores x) :=
  inferInstanceAs (Decidable (∃ d ∈ e.find? x.1, d.type.Equivalent x.2))

theorem find?_refineAll {l : List (ClueId × Qualified)} {j : ClueId} {d : Clue σ κ}
    (h : e.find? j = some d) :
    (refineAll l e).1.find? j = some ((candidatesAt l j).foldl Clue.learn d) := by
  obtain ⟨hd, rfl⟩ := find?_eq_some_iff.1 h
  obtain ⟨q, hq⟩ := d.exists_foldl_learn_eq (candidatesAt l d.id)
  rw [find?_eq_some_iff, at?_refineAll, hd]
  exact ⟨rfl, by rw [hq]⟩

theorem exists_last_candidate {l : List (ClueId × Qualified)} {x : ClueId × Qualified}
    (hx : x ∈ l) : ∃ q, (candidatesAt l x.1).getLast? = some q := by
  have hne : candidatesAt l x.1 ≠ [] :=
    List.ne_nil_of_mem (mem_candidatesAt.2 ⟨x, hx, rfl, rfl⟩)
  exact Option.isSome_iff_exists.1 (List.getLast?_isSome.2 hne)

theorem Visit.stores_iff (he : e.WellFormed) (h : Visit e c (r :: rs) m)
    (hv : (m.invoke r c.targets).1 = .refined types) {x : ClueId × Qualified}
    (hx : x ∈ c.targets.zip types) : ∃ q ∈ (candidatesAt (c.targets.zip types) x.1).getLast?,
      ((refineAll (c.targets.zip types) m).1.Stores x ↔ q.Equivalent x.2) := by
  obtain ⟨d, hd, -⟩ := (h.narrows he hv).2 x hx
  obtain ⟨q, hq⟩ := exists_last_candidate hx
  have hlast := Clue.equivalent_foldl_learn hq d
  refine ⟨q, hq, ?_⟩
  rw [Stores, find?_refineAll hd]
  constructor
  · rintro ⟨d', hd', hx'⟩
    cases hd'
    exact hlast.symm.trans hx'
  · intro hqx
    exact ⟨_, rfl, hlast.trans hqx⟩

theorem Visit.nodup_targets (he : e.WellFormed) (h : Visit e c rs m) (hn : c.dependencies.Nodup) :
    c.targets.Nodup := by
  refine List.nodup_cons.2 ⟨fun hc => ?_, hn⟩
  exact Nat.lt_irrefl _ (he.dependencies c (List.mem_of_getElem? h.at?_self) c.id hc).2

theorem WellFormed.zip_inj (he : e.WellFormed) {ids : List ClueId} (hn : ids.Nodup)
    (hi : ∀ i ∈ ids, e.Issued i) (hlen : types.length = ids.length) :
    ∀ x ∈ ids.zip types, ∀ y ∈ ids.zip types, x.1.slot = y.1.slot → x = y := by
  intro x hx y hy hs
  have hnodup : ((ids.zip types).map Prod.fst).Nodup := by
    rw [List.map_fst_zip (Nat.le_of_eq hlen.symm)]
    exact hn
  exact List.inj_on_of_nodup_map hnodup hx hy
    (he.slot_inj (hi _ (List.of_mem_zip hx).1) (hi _ (List.of_mem_zip hy).1) hs)

theorem stores_refineAll {l : List (ClueId × Qualified)} {x : ClueId × Qualified} (hx : x ∈ l)
    (hl : ∀ y ∈ l, y.1.slot = x.1.slot → y = x) {d : Clue σ κ} (hd : e.find? x.1 = some d) :
    (refineAll l e).1.Stores x := by
  obtain ⟨q, hq⟩ := exists_last_candidate hx
  obtain ⟨y, hy, hslot, rfl⟩ := mem_candidatesAt.1 (List.mem_of_getLast? hq)
  obtain rfl : y = x := hl y hy hslot
  exact ⟨_, find?_refineAll hd, Clue.equivalent_foldl_learn hq d⟩

/-- No clue depends on itself, so whatever it depends on, one candidate is for itself. -/
theorem WellFormed.stores_first (he : e.WellFormed) (hc : c ∈ e.clues) (x : Qualified)
    (xs : List Qualified) : (refineAll (c.targets.zip (x :: xs)) e).1.Stores (c.id, x) := by
  refine stores_refineAll List.mem_cons_self ?_ (find?_eq_some_iff.2 ⟨he.at?_of_mem hc, rfl⟩)
  intro y hy hslot
  rcases List.mem_cons.1 hy with rfl | hy
  · rfl
  · obtain ⟨hi, hlt⟩ := he.dependencies c hc y.1 (List.of_mem_zip hy).1
    rw [he.slot_inj hi ⟨c, hc, rfl⟩ hslot] at hlt
    exact absurd hlt (Nat.lt_irrefl _)

theorem Visit.stores_of_nodup (he : e.WellFormed) (h : Visit e c (r :: rs) m)
    (hv : (m.invoke r c.targets).1 = .refined types) (hn : c.dependencies.Nodup)
    {x : ClueId × Qualified} (hx : x ∈ c.targets.zip types) :
    (refineAll (c.targets.zip types) m).1.Stores x := by
  obtain ⟨hlen, hall⟩ := h.narrows he hv
  obtain ⟨d, hd, -⟩ := hall x hx
  have hi : ∀ t ∈ c.targets, m.Issued t := by
    intro t ht
    obtain ⟨b, hb⟩ := h.exists_find? he ht
    rw [← (he.evolves h.evolves).isSome_find?_iff, hb]
    rfl
  have hinj := (he.evolves h.evolves).zip_inj (h.nodup_targets he hn) hi hlen
  exact stores_refineAll hx (fun y hy => hinj y hy x hx) hd

/-- Right after a rule has ended with types, a target has the type meant for it exactly if the last
candidate for the same clue says the same; so all of them are stored if no clue is named twice. -/
theorem stores_iff_last_candidate {p : Policy} {es : List (Event σ κ)} (hh : History p e es)
    (h : Visit e c (r :: rs) m) (hv : (m.invoke r c.targets).1 = .refined types) :
    let new := c.targets.zip types
    let m' := (refineAll new m).1
    Visit e c rs m' ∧ types.length = c.targets.length ∧
      (∀ x ∈ new, ∃ q ∈ (candidatesAt new x.1).getLast?, (m'.Stores x ↔ q.Equivalent x.2)) ∧
      (c.dependencies.Nodup → ∀ x ∈ new, m'.Stores x) := by
  have hw := hh.wellFormed
  exact ⟨h.store hv, (h.narrows hw hv).1, fun x => h.stores_iff hw hv,
    fun hn x => h.stores_of_nodup hw hv hn⟩

/-- A hole that a pin names once is an integer after the pin has been looked at. -/
theorem stores_iff_last_candidate_pinned_once :
    let e := (drive 3 {} (pinning [hole])).1
    ∃ c rest types, Visit e c [pin, stop] { e with pending := rest } ∧
      (e.invoke pin c.targets).1 = .refined types ∧ c.dependencies.Nodup ∧
      (hole, .plain (.atom "Int")) ∈ c.targets.zip types ∧
      (refineAll (c.targets.zip types) { e with pending := rest }).1.Stores
        (hole, .plain (.atom "Int")) := by
  intro e
  obtain ⟨c, rest, ht, h⟩ := e.exists_visit ⟨"Pin", 1, 2⟩ [hole] (by decide +kernel)
    (by decide +kernel) (by decide +kernel)
  have hv : (e.invoke pin c.targets).1 =
      .refined [.plain (.var "any_2"), .plain (.atom "Int")] := by
    rw [ht]
    decide +kernel
  have hn : c.dependencies.Nodup := by
    have hd : c.dependencies = [hole] := List.tail_eq_of_cons_eq ht
    rw [hd]
    exact List.nodup_singleton hole
  have hm : (hole, Qualified.plain (.atom "Int")) ∈
      c.targets.zip [.plain (.var "any_2"), .plain (.atom "Int")] := by
    rw [ht]
    decide
  obtain ⟨-, -, -, hstores⟩ :=
    stores_iff_last_candidate (history_drive 3 {} (pinning [hole])) h hv
  exact ⟨c, rest, _, h, hv, hn, hm, hstores hn _ hm⟩

/-- A hole that a pin names twice is not an integer after the pin has been looked at, although that
is the type meant for it at the first place. -/
theorem not_stores_pinned_twice :
    let e := (drive 3 {} (pinning [hole, hole])).1
    ∃ es c rest types, History {} e es ∧ Visit e c [pin, stop] { e with pending := rest } ∧
      (e.invoke pin c.targets).1 = .refined types ∧
      (hole, .plain (.atom "Int")) ∈ c.targets.zip types ∧
      ¬ (refineAll (c.targets.zip types) { e with pending := rest }).1.Stores
        (hole, .plain (.atom "Int")) := by
  intro e
  obtain ⟨c, rest, ht, h, hv⟩ := exists_visit_pinning_twice
  have hh := history_drive 3 {} (pinning [hole, hole])
  have hm : (hole, Qualified.plain (.atom "Int")) ∈
      c.targets.zip [.plain (.var "any_2"), .plain (.atom "Int"), .plain (.var "any_3")] := by
    rw [ht]
    decide
  refine ⟨_, c, rest, _, hh, h, hv, hm, ?_⟩
  obtain ⟨q, hq, hs⟩ := h.stores_iff hh.wellFormed hv hm
  rw [hs]
  rw [ht] at hq
  obtain rfl : .plain (.var "any_3") = q := Option.some.inj hq
  decide +kernel

end Engine
end TypeClues
