import TypeClues.Proofs.Engine.Runs
import TypeClues.Proofs.Naming.Hygiene

/-!
# Places and names of clues

The id of a clue is its place in the table and its name. The words are numbered by the supply, each
by itself, so no two clues have the same word and number, and the text of an id tells both. Whenever
the engine goes to the place of an id, the clue with this id is there.
-/
namespace TypeClues

theorem Allocation.render_inj {i j : ClueId} :
    i.render = j.render ↔ i.word = j.word ∧ i.number = j.number :=
  marked_inj rfl rfl

namespace Engine
variable {σ κ : Type} {e e' m : Engine σ κ}

def ids (e : Engine σ κ) : List ClueId := e.clues.map Clue.id

theorem mem_ids {i : ClueId} : i ∈ e.ids ↔ e.Issued i := List.mem_map

theorem Evolves.ids (h : Evolves e e') : e'.ids = e.ids := h.map_eq fun _ => rfl

@[simp] theorem ids_withClue (new : Clue σ κ) : (e.withClue new).ids = e.ids ++ [new.id] := by
  simp [Engine.ids, withClue]

theorem WellFormed.getElem?_ids (he : e.WellFormed) {i : ClueId} (hi : e.Issued i) :
    e.ids[i.slot]? = some i := by
  obtain ⟨c, hc, rfl⟩ := hi
  have hat := he.at?_of_mem hc
  rw [at?] at hat
  rw [ids, List.getElem?_map, hat]
  rfl

/-- The ids are those that the supply has given, each word numbered by itself. -/
structure Numbered (e : Engine σ κ) : Prop where
  issued : e.supply.issued = (e.ids.map Allocation.word).reverse
  counted : ∀ i ∈ e.ids, i.number ≤ e.supply.issued.count i.word
  ascending : e.ids.Pairwise fun i j => i.word = j.word → i.number < j.number

namespace Numbered

theorem empty (p : Policy) (rules : List (Rule κ)) :
    ({ policy := p, rules } : Engine σ κ).Numbered :=
  ⟨rfl, fun _ hi => absurd hi List.not_mem_nil, .nil⟩

theorem evolves (h : e.Numbered) (he : Evolves e e') : e'.Numbered := by
  constructor
  · rw [he.supply, he.ids, h.issued]
  · rw [he.supply, he.ids]
    exact h.counted
  · rw [he.ids]
    exact h.ascending

theorem withClue (h : e.Numbered) {new : Clue σ κ} (hn : new.id = (e.supply.allocate new.kind).1) :
    (e.withClue new).Numbered := by
  have hnumber : new.id.number = e.supply.issued.count new.id.word + 1 := congrArg (·.number) hn
  have hissued : (e.withClue new).supply.issued = new.id.word :: e.supply.issued := rfl
  constructor
  case issued => simp [hissued, h.issued]
  case counted =>
    intro i hi
    rw [ids_withClue, List.mem_append, List.mem_singleton] at hi
    rw [hissued]
    rcases hi with hi | rfl
    · exact Nat.le_trans (h.counted i hi) List.count_le_count_cons
    · rw [List.count_cons_self, hnumber]
  case ascending =>
    rw [ids_withClue, List.pairwise_append]
    refine ⟨h.ascending, List.pairwise_singleton _ _, fun i hi j hj hw => ?_⟩
    rw [List.mem_singleton] at hj
    rw [hj] at hw ⊢
    rw [hnumber, ← hw]
    exact Nat.lt_succ_of_le (h.counted i hi)

theorem leads (h : e.Numbered) (he : e.WellFormed) (hl : Leads e e') : e'.Numbered := by
  induction hl with
  | refl => exact h
  | tail hl ha ih =>
    cases ha with
    | rule r => exact ⟨ih.issued, ih.counted, ih.ascending⟩
    | clue ha =>
      obtain ⟨-, rfl⟩ := (he.leads hl).addClue_ok ha
      exact ih.withClue rfl
    | step hs =>
      obtain ⟨es, hs⟩ := hs
      exact ih.evolves (evolves_step? hs)

theorem nodup_names (h : e.Numbered) :
    (e.clues.map fun c => (c.id.word, c.id.number)).Nodup := by
  have hp : (e.ids.map fun i => (i.word, i.number)).Nodup := by
    rw [List.Nodup, List.pairwise_map]
    apply h.ascending.imp
    intro i j hij hname
    obtain ⟨hw, hn⟩ := Prod.mk.inj hname
    exact absurd hn (Nat.ne_of_lt (hij hw))
  simpa only [ids, List.map_map, Function.comp_def] using hp

theorem nodup_texts (h : e.Numbered) : (e.clues.map fun c => c.id.render).Nodup := by
  have hp := h.nodup_names
  rw [List.Nodup, List.pairwise_map] at hp ⊢
  apply hp.imp
  intro c d hne htext
  obtain ⟨hw, hn⟩ := Allocation.render_inj.1 htext
  exact hne (Prod.ext hw hn)

theorem number_le (h : e.Numbered) {c : Clue σ κ} (hc : c ∈ e.clues) :
    c.id.number ≤ e.clues.length :=
  calc c.id.number
    _ ≤ e.supply.issued.count c.id.word := h.counted _ (List.mem_map_of_mem hc)
    _ ≤ e.supply.issued.length := List.count_le_length
    _ = e.clues.length := by simp [h.issued, ids]

end Numbered

/-- In what an engine does next, it goes to the place of an id without looking whether there is such
a place. By then it has become `m`. -/
inductive Access (e : Engine σ κ) : (m : Engine σ κ) → (id : ClueId) → Prop where
  /-- A new clue is entered with its dependencies, one after the other. -/
  | link {kind : String} {source : σ} {constant : κ} {before after : List ClueId} {d : ClueId}
      {r : ClueId × Engine σ κ × List (Event σ κ)}
      (ha : e.addClue kind source constant (before ++ d :: after) = .ok r) :
      Access e (before.foldl (fun e b => e.addDependent b r.1) e) d
  /-- The oldest pending clue is looked at; errors that it inherits go there too. -/
  | look {i : ClueId} {rest : OrderedSet ClueId} (hp : e.pending.popLeast? = some (i, rest)) :
      Access e { e with pending := rest } i
  /-- Its dependencies are looked at for errors. -/
  | dependency {i d : ClueId} {rest : OrderedSet ClueId} {c : Clue σ κ}
      (hp : e.pending.popLeast? = some (i, rest)) (hc : e.at? i = some c) (hd : d ∈ c.dependencies) :
      Access e { e with pending := rest } d
  /-- A rule is run on the clue and its dependencies; the error of a rule that fails goes to the
  clue. -/
  | target {c : Clue σ κ} {r : Rule κ} {rs : List (Rule κ)} {m : Engine σ κ} {t : ClueId}
      (h : Visit e c (r :: rs) m) (ht : t ∈ c.targets) : Access e m t
  /-- The types that a rule ends with are stored, one after the other. -/
  | store {c : Clue σ κ} {r : Rule κ} {rs : List (Rule κ)} {m : Engine σ κ} {types : List Qualified}
      {before after : List (ClueId × Qualified)} {t : ClueId} {q : Qualified}
      (h : Visit e c (r :: rs) m) (hv : (m.invoke r c.targets).1 = .refined types)
      (hz : c.targets.zip types = before ++ (t, q) :: after) : Access e (refineAll before m).1 t

theorem ids_foldl_addDependent (ds : List ClueId) (i : ClueId) :
    (ds.foldl (fun e d => e.addDependent d i) e).ids = e.ids := by
  induction ds generalizing e with
  | nil => rfl
  | cons d ds ih =>
    rw [List.foldl_cons, ih]
    apply map_modify_eq
    intro c
    rfl

/-- The engine only ever goes to places of ids that it has issued, and keeps the ids on the way. -/
theorem Access.issued (he : e.WellFormed) {id : ClueId} (h : Access e m id) :
    e.Issued id ∧ m.ids = e.ids := by
  cases h with
  | link ha =>
    obtain ⟨hd, -⟩ := he.addClue_ok ha
    exact ⟨hd id (by simp), ids_foldl_addDependent _ _⟩
  | look hp => exact ⟨he.pending id ((OrderedSet.mem_of_popLeast? hp).2 (.inl rfl)), rfl⟩
  | dependency hp hc hd => exact ⟨(he.dependencies _ (List.mem_of_getElem? hc) id hd).1, rfl⟩
  | target h ht => exact ⟨h.issued he ht, h.evolves.ids⟩
  | @store c _ _ _ types before after _ q h _ hz =>
    have hmem : (id, q) ∈ c.targets.zip types :=
      hz ▸ List.mem_append_right before List.mem_cons_self
    have ht : id ∈ c.targets := (List.of_mem_zip hmem).1
    exact ⟨h.issued he ht, (h.evolves.trans (evolves_refineAll before)).ids⟩

theorem WellFormed.exists_place (he : e.WellFormed) (hm : m.ids = e.ids) {id : ClueId}
    (hi : e.Issued id) : ∃ h : id.slot < m.clues.length, m.clues[id.slot].id = id := by
  have hat := he.getElem?_ids hi
  rw [← hm, ids, List.getElem?_map] at hat
  obtain ⟨d, hd, hid⟩ := Option.map_eq_some_iff.1 hat
  obtain ⟨hlt, hd⟩ := List.getElem?_eq_some_iff.1 hd
  exact ⟨hlt, hd ▸ hid⟩

/-- After any commands, refused ones among them, and any number of steps: clues stand at the places
that their ids tell and depend on older clues, dependents mirror dependencies, what is pending is a
clue, no two clues have the same word and number or the same text, and the engine never goes to a
place without the clue that it is looking for. No number is greater than the number of clues. -/
theorem places_and_names (limit : Nat) (p : Policy) (cs : List (Command σ κ))
    (h : Steps (drive limit p cs).1 e) :
    e.WellFormed ∧
      (e.clues.map fun c => (c.id.word, c.id.number)).Nodup ∧
      (e.clues.map fun c => c.id.render).Nodup ∧
      (∀ c ∈ e.clues, c.id.number ≤ e.clues.length) ∧
      ∀ m id, Access e m id → ∃ h : id.slot < m.clues.length, m.clues[id.slot].id = id := by
  have hl : Leads { policy := p } e :=
    (leads_drive limit p [] cs).trans (h.lift id fun _ _ hs => .step hs)
  have he := (wellFormed_empty p).leads hl
  have hn := (Numbered.empty p []).leads (wellFormed_empty p) hl
  refine ⟨he, hn.nodup_names, hn.nodup_texts, fun c => hn.number_le, fun m id ha => ?_⟩
  obtain ⟨hi, hm⟩ := ha.issued he
  exact he.exists_place hm hi

/-- A hole, a clue whose kind reads like the id of the hole, a pin on a clue that is not there and a
pin on the hole. -/
def refusedPin : List (Command String (Constant Unit)) :=
  [.rule pin, .clue "Hole" "a" nothing [], .clue "Hole#1" "b" nothing [hole],
    .clue "Pin" "c" nothing [⟨"Hole", 1, 2⟩], .clue "Pin" "d" nothing [hole]]

theorem places_and_names_refused_pin :
    ∃ e, Steps (drive 3 {} refusedPin).1 e ∧ e.WellFormed ∧
      e.clues.map (fun c => c.id.render) = ["Hole#1", "Hole#1#1", "Pin#1"] ∧
      (e.clues.map fun c => c.id.render).Nodup ∧
      ∃ m id, Access e m id ∧ ∃ h : id.slot < m.clues.length, m.clues[id.slot].id = id := by
  have hstep : ((drive 3 {} refusedPin).1.step?.bind fun r => r.1.pending.popLeast?).isSome := by
    decide +kernel
  have htexts : ((drive 3 {} refusedPin).1.step?.map fun r => r.1.clues.map fun c => c.id.render) =
      some ["Hole#1", "Hole#1#1", "Pin#1"] := by
    decide +kernel
  obtain ⟨⟨i, rest⟩, hp⟩ := Option.isSome_iff_exists.1 hstep
  obtain ⟨r, hr, hp⟩ := Option.bind_eq_some_iff.1 hp
  rw [hr] at htexts
  have hs : Steps (drive 3 {} refusedPin).1 r.1 := .single ⟨r.2, hr⟩
  obtain ⟨hw, -, hnodup, -, hplace⟩ := places_and_names 3 {} refusedPin hs
  exact ⟨r.1, hs, hw, Option.some.inj htexts, hnodup, _, i, .look hp, hplace _ i (.look hp)⟩

end Engine
end TypeClues
