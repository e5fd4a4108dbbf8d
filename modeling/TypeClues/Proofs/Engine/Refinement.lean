import TypeClues.Proofs.Engine.Runs
import TypeClues.Proofs.Rule.Invocation
import TypeClues.Proofs.Variants

/-!
# Types only get more refined

The types that a rule ends with narrow the types stored on its targets when it started. What is
stored of them is a canonical form, which is the same type under other names, so the stored term is
an instance of the one before. Instances of instances are instances, so this holds along every run.
-/
namespace TypeClues

theorem Qualified.covers_canonical (q : Qualified) : q.term.Covers q.canonical.term := by
  obtain ⟨f, -, hf⟩ := q.variant_canonical
  rw [hf]
  exact ⟨_, rfl⟩

theorem Clue.covers_foldl_learn {σ κ : Type} {t : Term} {qs : List Qualified} {c : Clue σ κ}
    (hc : t.Covers c.type.term) (hq : ∀ q ∈ qs, t.Covers q.term) :
    t.Covers (qs.foldl learn c).type.term := by
  induction qs generalizing c with
  | nil => exact hc
  | cons q qs ih =>
    refine ih ?_ fun p hp => hq p (List.mem_cons_of_mem q hp)
    rw [learn]
    split
    · exact hc
    · exact (hq q List.mem_cons_self).trans q.covers_canonical

namespace Engine
variable {σ κ : Type} {e e' m : Engine σ κ} {c : Clue σ κ} {r : Rule κ} {rs : List (Rule κ)}
  {types : List Qualified}

theorem Visit.exists_find? (he : e.WellFormed) (h : Visit e c rs m) {t : ClueId}
    (ht : t ∈ c.targets) : ∃ d, m.find? t = some d := by
  rw [← Option.isSome_iff_exists, (he.evolves h.evolves).isSome_find?_iff, h.evolves.issued_iff]
  exact h.issued he ht

theorem getElem?_filterMap_of_isSome {α β : Type} {f : α → Option β} {l : List α}
    (h : ∀ a ∈ l, (f a).isSome) (i : Nat) : (l.filterMap f)[i]? = l[i]?.bind f := by
  induction l generalizing i with
  | nil => simp
  | cons a l ih =>
    obtain ⟨b, hb⟩ := Option.isSome_iff_exists.1 (h a List.mem_cons_self)
    rw [List.filterMap_cons_some hb]
    cases i with
    | zero => simp [hb]
    | succ i => simpa using ih (fun x hx => h x (List.mem_cons_of_mem a hx)) i

theorem Visit.narrows (he : e.WellFormed) (h : Visit e c (r :: rs) m)
    (hv : (m.invoke r c.targets).1 = .refined types) :
    types.length = c.targets.length ∧
      ∀ x ∈ c.targets.zip types, ∃ d, m.find? x.1 = some d ∧ d.type.Narrows x.2 := by
  have hfind : ∀ t ∈ c.targets, ∃ d, m.find? t = some d := fun t => h.exists_find? he
  have hat : ∀ t ∈ c.targets, (m.at? t).isSome := by
    intro t ht
    obtain ⟨d, hd⟩ := hfind t ht
    rw [(find?_eq_some_iff.1 hd).1]
    rfl
  obtain ⟨hlen, hall⟩ := Workspace.narrows_of_refined hv
  rw [List.filterMap_length_eq_length.2 hat] at hlen
  refine ⟨hlen, fun x hx => ?_⟩
  obtain ⟨i, hi⟩ := List.mem_iff_getElem?.1 hx
  obtain ⟨ht, hq⟩ := List.getElem?_zip_eq_some.1 hi
  obtain ⟨d, hd⟩ := hfind x.1 (List.mem_of_getElem? ht)
  refine ⟨d, hd, hall i d x.2 ?_ hq⟩
  rw [getElem?_filterMap_of_isSome hat, ht]
  exact (find?_eq_some_iff.1 hd).1

/-- The term of the second clue is an instance of the term of the first. -/
def Sharpens (c c' : Clue σ κ) : Prop := c.type.term.Covers c'.type.term

theorem Visit.sharpens (he : e.WellFormed) (h : Visit e c rs m) {j : ClueId} {d d' : Clue σ κ}
    (hd : e.at? j = some d) (hd' : m.at? j = some d') : Sharpens d d' := by
  induction h generalizing d' with
  | start hp hc hn hdep =>
    obtain rfl : d = d' := Option.some.inj (hd.symm.trans hd')
    exact .refl _
  | pass _ _ ih => exact ih hd'
  | store h hv ih =>
    rw [at?_refineAll] at hd'
    obtain ⟨b, hb, rfl⟩ := Option.map_eq_some_iff.1 hd'
    refine (ih hb).trans (Clue.covers_foldl_learn (.refl _) fun q hq => ?_)
    obtain ⟨x, hx, hs, rfl⟩ := mem_candidatesAt.1 hq
    obtain ⟨a, ha, θ, ht, -⟩ := (h.narrows he hv).2 x hx
    -- the target of the candidate is the clue at this place
    have hab : a = b := by
      have ha := (find?_eq_some_iff.1 ha).1
      rw [at?, hs, ← at?, hb] at ha
      exact (Option.some.inj ha).symm
    exact ⟨θ, hab ▸ ht⟩

theorem exists_at?_of_addErrors {id j : ClueId} {ds : List (Diagnostic σ)} {d : Clue σ κ}
    (h : (e.addErrors id ds).at? j = some d) : ∃ b, e.at? j = some b ∧ b.type = d.type := by
  rw [addErrors, at?_modify] at h
  split at h
  · obtain ⟨b, hb, rfl⟩ := Option.map_eq_some_iff.1 h
    exact ⟨b, hb, rfl⟩
  · exact ⟨d, h, rfl⟩

theorem Look.sharpens (he : e.WellFormed) (h : Look e c e') {j : ClueId} {d d' : Clue σ κ}
    (hd : e.at? j = some d) (hd' : e'.at? j = some d') : Sharpens d d' := by
  cases h with
  | skip hp hc hn =>
    obtain rfl : d = d' := Option.some.inj (hd.symm.trans hd')
    exact .refl _
  | inherit hp hc hn hdep =>
    obtain ⟨b, hb, ht⟩ := exists_at?_of_addErrors hd'
    obtain rfl : d = b := Option.some.inj (hd.symm.trans hb)
    rw [Sharpens, ht]
    exact .refl _
  | finish h => exact h.sharpens he hd hd'
  | fail h hv =>
    obtain ⟨b, hb, ht⟩ := exists_at?_of_addErrors hd'
    rw [Sharpens, ← ht]
    exact h.sharpens he hd hb

theorem WellFormed.sharpens_leads (he : e.WellFormed) (h : Leads e e') : Carries Sharpens e e' := by
  refine he.carries_leads ?_ ?_ ?_ ?_ h
  · exact fun c => .refl _
  · exact fun a b c => .trans
  · intro new c
    rw [Sharpens, Clue.type_link]
    exact .refl _
  · exact fun e c e' hw hl j d d' => hl.sharpens hw

/-- Types only get more refined: whenever a rule ends with types, there is one for each target,
which narrows the type that the target had when the rule started, and the terms that a clue has in a
run are instances of the earlier ones. -/
theorem types_narrow {p : Policy} {es : List (Event σ κ)} (hh : History p e es) :
    (∀ c r rs m types, Visit e c (r :: rs) m → (m.invoke r c.targets).1 = .refined types →
      types.length = c.targets.length ∧
        ∀ x ∈ c.targets.zip types, ∃ d, m.find? x.1 = some d ∧ d.type.Narrows x.2) ∧
    ∀ e', Leads e e' → ∀ id c, e.find? id = some c →
      ∃ c', e'.find? id = some c' ∧ ∃ θ, c'.type.term = c.type.term.subst θ := by
  have hw := hh.wellFormed
  exact ⟨fun c r rs m types h hv => h.narrows hw hv, fun e' h => hw.sharpens_leads h⟩

/-- A pin on a hole, or on the same hole several times. -/
def pinning (dependencies : List ClueId) : List (Command String (Constant Unit)) :=
  [.rule pin, .rule stop, .clue "Hole" "a" nothing [], .process,
    .clue "Pin" "b" nothing dependencies]

/-- Two candidates come up for a hole that is named twice, one for each place. -/
theorem exists_visit_pinning_twice :
    let e := (drive 3 {} (pinning [hole, hole])).1
    ∃ c rest, c.targets = [⟨"Pin", 1, 2⟩, hole, hole] ∧
      Visit e c [pin, stop] { e with pending := rest } ∧ (e.invoke pin c.targets).1 =
        .refined [.plain (.var "any_2"), .plain (.atom "Int"), .plain (.var "any_3")] := by
  intro e
  obtain ⟨c, rest, ht, h⟩ := e.exists_visit ⟨"Pin", 1, 2⟩ [hole, hole] (by decide +kernel)
    (by decide +kernel) (by decide +kernel)
  refine ⟨c, rest, ht, h, ?_⟩
  rw [ht]
  decide +kernel

theorem types_narrow_pinned_twice :
    let e := (drive 3 {} (pinning [hole, hole])).1
    let e' := (drive 3 {} (pinning [hole, hole] ++ [.process])).1
    (∃ c rest types, Visit e c [pin, stop] { e with pending := rest } ∧
      (e.invoke pin c.targets).1 = .refined types ∧ types.length = c.targets.length ∧
        ∀ x ∈ c.targets.zip types, ∃ d, e.find? x.1 = some d ∧ d.type.Narrows x.2) ∧
    Leads e e' ∧ ∃ c c', e.find? hole = some c ∧ e'.find? hole = some c' ∧
      ∃ θ, c'.type.term = c.type.term.subst θ := by
  intro e e'
  obtain ⟨hnarrow, hlater⟩ := types_narrow (history_drive 3 {} (pinning [hole, hole]))
  obtain ⟨c, rest, -, h, hv⟩ := exists_visit_pinning_twice
  have hl : Leads e e' := leads_drive 3 {} (pinning [hole, hole]) [.process]
  have hs : (e.find? hole).isSome := by decide +kernel
  obtain ⟨d, hd⟩ := Option.isSome_iff_exists.1 hs
  obtain ⟨d', hd', hθ⟩ := hlater e' hl hole d hd
  have hn := hnarrow c pin [stop] { e with pending := rest } _ h hv
  exact ⟨⟨c, rest, _, h, hv, hn⟩, hl, d, d', hd, hd', hθ⟩

end Engine
end TypeClues
