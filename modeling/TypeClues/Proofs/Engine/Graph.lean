import TypeClues.Proofs.Engine.Frame

/-!
# The graph of clues

Ids are places: the clue at place `k` has serial number `k + 1`. Clues depend on older clues only,
the lists of dependents mirror the lists of dependencies, and only clues of the engine are pending.
Every command and every step keeps this.
-/
namespace TypeClues

/-- An older clue after `new` has been added: it has a dependent more if `new` depends on it. -/
def Clue.link {σ κ : Type} (new c : Clue σ κ) : Clue σ κ :=
  if c.id ∈ new.dependencies then { c with dependents := c.dependents.insert new.id } else c

namespace Clue
variable {σ κ : Type} (new c : Clue σ κ)

@[simp] theorem id_link : (new.link c).id = c.id := by rw [link]; split <;> rfl

@[simp] theorem dependencies_link : (new.link c).dependencies = c.dependencies := by
  rw [link]; split <;> rfl

@[simp] theorem type_link : (new.link c).type = c.type := by rw [link]; split <;> rfl

@[simp] theorem errors_link : (new.link c).errors = c.errors := by rw [link]; split <;> rfl

theorem mem_dependents_link (i : ClueId) :
    i ∈ (new.link c).dependents ↔ (c.id ∈ new.dependencies ∧ i = new.id) ∨ i ∈ c.dependents := by
  rw [link]
  split <;> simp [*]

end Clue

namespace Engine
variable {σ κ : Type} {e e' : Engine σ κ}

/-- The id belongs to a clue of the engine. -/
def Issued (e : Engine σ κ) (id : ClueId) : Prop := ∃ c ∈ e.clues, c.id = id

structure WellFormed (e : Engine σ κ) : Prop where
  allocated : e.supply.allocated = e.clues.length
  serial : ∀ (k : Nat) (c : Clue σ κ), e.clues[k]? = some c → c.id.serial = k + 1
  dependencies : ∀ c ∈ e.clues, ∀ d ∈ c.dependencies, e.Issued d ∧ d.serial < c.id.serial
  dependents : ∀ c ∈ e.clues, ∀ i, i ∈ c.dependents ↔ ∃ d ∈ e.clues, d.id = i ∧ c.id ∈ d.dependencies
  pending : ∀ i ∈ e.pending, e.Issued i

theorem wellFormed_empty (p : Policy) : ({ policy := p } : Engine σ κ).WellFormed where
  allocated := rfl
  serial := by simp
  dependencies := by simp
  dependents := by simp
  pending := fun i hi => absurd hi (OrderedSet.not_mem_empty i)

theorem WellFormed.addRule (h : e.WellFormed) (r : Rule κ) : (e.addRule r).1.WellFormed :=
  ⟨h.allocated, h.serial, h.dependencies, h.dependents, h.pending⟩

theorem wellFormed_rules (p : Policy) (rules : List (Rule κ)) :
    (rules.foldl (fun e r => (e.addRule r).1) ({ policy := p } : Engine σ κ)).WellFormed :=
  List.foldlRecOn rules _ (wellFormed_empty p) fun _ h r _ => h.addRule r

namespace WellFormed

theorem at?_of_mem (h : e.WellFormed) {c : Clue σ κ} (hc : c ∈ e.clues) : e.at? c.id = some c := by
  obtain ⟨k, hk⟩ := List.mem_iff_getElem?.1 hc
  have hs : c.id.slot = k := by simp [Allocation.slot, h.serial k c hk]
  rw [at?, hs, hk]

theorem slot_inj (h : e.WellFormed) {i j : ClueId} (hi : e.Issued i) (hj : e.Issued j)
    (hs : i.slot = j.slot) : i = j := by
  obtain ⟨c, hc, rfl⟩ := hi
  obtain ⟨d, hd, rfl⟩ := hj
  have hcd := h.at?_of_mem hc
  rw [at?, hs, ← at?, h.at?_of_mem hd] at hcd
  rw [Option.some.inj hcd]

theorem hasError_of_mem (h : e.WellFormed) {c : Clue σ κ} (hc : c ∈ e.clues) :
    e.hasError c.id = c.hasError := by
  rw [hasError, h.at?_of_mem hc]
  rfl

theorem slot_lt (h : e.WellFormed) {id : ClueId} (hid : e.Issued id) : id.slot < e.clues.length := by
  obtain ⟨c, hc, rfl⟩ := hid
  have hs := h.at?_of_mem hc
  rw [at?] at hs
  exact (List.getElem?_eq_some_iff.1 hs).1

theorem serial_le (h : e.WellFormed) {id : ClueId} (hid : e.Issued id) :
    id.serial ≤ e.clues.length := by
  have hs := h.slot_lt hid
  simp only [Allocation.slot] at hs
  omega

theorem isSome_find?_iff (h : e.WellFormed) {id : ClueId} : (e.find? id).isSome ↔ e.Issued id := by
  rw [find?]
  constructor
  · intro hs
    obtain ⟨c, hc⟩ := Option.isSome_iff_exists.1 hs
    obtain ⟨hc, hid⟩ := Option.filter_eq_some_iff.1 hc
    exact ⟨c, List.mem_of_getElem? hc, by simpa using hid⟩
  · rintro ⟨c, hc, rfl⟩
    simp [h.at?_of_mem hc]

theorem issued_of_find? (h : e.WellFormed) {ds : List ClueId}
    (hf : (ds.find? fun d => (e.find? d).isNone) = none) : ∀ d ∈ ds, e.Issued d := by
  intro d hd
  rw [← h.isSome_find?_iff]
  simpa [Option.isSome_iff_ne_none] using List.find?_eq_none.1 hf d hd

end WellFormed

theorem issued_of_frame (h : e'.clues.map Clue.frame = e.clues.map Clue.frame) {id : ClueId}
    (hi : e'.Issued id) : e.Issued id := by
  obtain ⟨c, hc, rfl⟩ := hi
  obtain ⟨d, hd, hf⟩ := Clue.exists_mem_of_frame h hc
  exact ⟨d, hd, Clue.id_of_frame hf⟩

theorem Evolves.issued_iff (h : Evolves e e') {id : ClueId} : e'.Issued id ↔ e.Issued id :=
  ⟨issued_of_frame h.frame, issued_of_frame h.frame.symm⟩

theorem depends_of_frame (h : e'.clues.map Clue.frame = e.clues.map Clue.frame) {i j : ClueId}
    (hd : ∃ d ∈ e'.clues, d.id = i ∧ j ∈ d.dependencies) :
    ∃ d ∈ e.clues, d.id = i ∧ j ∈ d.dependencies := by
  obtain ⟨c, hc, rfl, hj⟩ := hd
  obtain ⟨d, hd, hf⟩ := Clue.exists_mem_of_frame h hc
  exact ⟨d, hd, Clue.id_of_frame hf, Clue.dependencies_of_frame hf ▸ hj⟩

theorem WellFormed.evolves (h : e.WellFormed) (he : Evolves e e') : e'.WellFormed where
  allocated := by rw [he.supply, he.length, h.allocated]
  serial k c hc := by
    have hk : e.clues[k]?.map Clue.frame = some c.frame := by
      rw [← List.getElem?_map, ← he.frame, List.getElem?_map, hc]
      rfl
    obtain ⟨d, hd, hf⟩ := Option.map_eq_some_iff.1 hk
    rw [← Clue.id_of_frame hf]
    exact h.serial k d hd
  dependencies c hc d hd := by
    obtain ⟨b, hb, hf⟩ := Clue.exists_mem_of_frame he.frame hc
    rw [he.issued_iff, ← Clue.id_of_frame hf]
    exact h.dependencies b hb d (Clue.dependencies_of_frame hf ▸ hd)
  dependents c hc i := by
    obtain ⟨b, hb, hf⟩ := Clue.exists_mem_of_frame he.frame hc
    rw [← Clue.dependents_of_frame hf, ← Clue.id_of_frame hf, h.dependents b hb i]
    exact ⟨depends_of_frame he.frame.symm, depends_of_frame he.frame⟩
  pending i hi := by
    rw [he.issued_iff]
    rcases he.pending i hi with hi | ⟨c, hc, hi⟩
    · exact h.pending i hi
    · obtain ⟨d, hd, rfl, -⟩ := (h.dependents c hc i).1 hi
      exact ⟨d, hd, rfl⟩

theorem WellFormed.find?_isNone_eq (h : e.WellFormed) (he : Evolves e e') (d : ClueId) :
    (e'.find? d).isNone = (e.find? d).isNone := by
  have hi : (e'.find? d).isSome ↔ (e.find? d).isSome := by
    rw [(h.evolves he).isSome_find?_iff, h.isSome_find?_iff, he.issued_iff]
  cases ha : e'.find? d <;> cases hb : e.find? d <;> simp [ha, hb] at hi <;> rfl

/-- The engine with one clue more, which is pending. -/
def withClue (e : Engine σ κ) (new : Clue σ κ) : Engine σ κ :=
  { e with
    supply := (e.supply.allocate new.kind).2
    clues := e.clues.map new.link ++ [new]
    pending := e.pending.insert new.id }

theorem issued_withClue {new : Clue σ κ} {id : ClueId} :
    (e.withClue new).Issued id ↔ e.Issued id ∨ new.id = id := by
  simp [Issued, withClue]

theorem at?_withClue {new : Clue σ κ} {id : ClueId} (h : id.slot < e.clues.length) :
    (e.withClue new).at? id = (e.at? id).map new.link := by
  have hl : id.slot < (e.clues.map new.link).length := by simpa using h
  rw [at?, at?, withClue, List.getElem?_append_left hl, List.getElem?_map]

theorem hasError_withClue {new : Clue σ κ} {id : ClueId} (h : id.slot < e.clues.length) :
    (e.withClue new).hasError id = e.hasError id := by
  rw [hasError, hasError, at?_withClue h, Option.any_map]
  congr 1
  funext c
  simp [Clue.hasError]

def draft (e : Engine σ κ) (kind : String) (source : σ) (constant : κ)
    (dependencies : List ClueId) : Clue σ κ :=
  { id := (e.supply.allocate kind).1, source, constant, dependencies }

theorem foldl_addDependent (ds : List ClueId) (i : ClueId) :
    ds.foldl (fun e d => e.addDependent d i) e =
      { e with clues := e.clues.mapIdx fun k c =>
          if k ∈ ds.map Allocation.slot then { c with dependents := c.dependents.insert i } else c } := by
  induction ds generalizing e with
  | nil =>
    have hn : e.clues.mapIdx (fun _ c => c) = e.clues := List.mapIdx_eq_iff.2 (by simp)
    simp [hn]
  | cons d ds ih =>
    have hi : ∀ s : OrderedSet ClueId, (s.insert i).insert i = s.insert i := by
      intro s
      ext x
      simp
    rw [List.foldl_cons, ih]
    simp only [addDependent, modify]
    congr 1
    apply List.ext_getElem?
    intro k
    simp only [List.getElem?_mapIdx, List.getElem?_modify, List.map_cons, List.mem_cons]
    by_cases hk : d.slot = k
    · by_cases hm : k ∈ ds.map Allocation.slot <;> cases e.clues[k]? <;> simp [hk, hm, hi]
    · cases e.clues[k]? <;> simp [hk, Ne.symm hk]

theorem WellFormed.foldl_link (h : e.WellFormed) (new : Clue σ κ)
    (hd : ∀ d ∈ new.dependencies, e.Issued d) :
    new.dependencies.foldl (fun e d => e.addDependent d new.id) e =
      { e with clues := e.clues.map new.link } := by
  rw [foldl_addDependent]
  congr 1
  apply List.ext_getElem?
  intro k
  rw [List.getElem?_mapIdx, List.getElem?_map]
  cases hc : e.clues[k]? with
  | none => rfl
  | some c =>
    have hk : k ∈ new.dependencies.map Allocation.slot ↔ c.id ∈ new.dependencies := by
      rw [List.mem_map]
      constructor
      · rintro ⟨d, hm, rfl⟩
        obtain ⟨b, hb, rfl⟩ := hd d hm
        have hbc : e.at? b.id = some c := hc
        rw [h.at?_of_mem hb] at hbc
        exact Option.some.inj hbc ▸ hm
      · intro hm
        exact ⟨c.id, hm, by simp [Allocation.slot, h.serial k c hc]⟩
    simp only [Option.map_some, Clue.link, hk]

/-- A request is refused at its first unknown dependency and otherwise adds one clue. -/
theorem WellFormed.addClue_eq (h : e.WellFormed) (kind : String) (source : σ) (constant : κ)
    (ds : List ClueId) :
    e.addClue kind source constant ds =
      match ds.find? fun d => (e.find? d).isNone with
      | some d => .error ⟨d⟩
      | none => .ok ((e.supply.allocate kind).1, e.withClue (e.draft kind source constant ds),
          [.clueAdded (e.supply.allocate kind).1 ds.length]) := by
  rw [addClue]
  cases hf : ds.find? fun d => (e.find? d).isNone with
  | some d => rfl
  | none =>
    have hl : ds.foldl (fun e' d => e'.addDependent d (e.supply.allocate kind).1) e =
        { e with clues := e.clues.map (e.draft kind source constant ds).link } :=
      h.foldl_link (e.draft kind source constant ds) (h.issued_of_find? hf)
    simp only [hl]
    rfl

theorem WellFormed.withClue (h : e.WellFormed) {new : Clue σ κ}
    (hs : new.id.serial = e.supply.allocated + 1) (hn : new.dependents = ∅)
    (hd : ∀ d ∈ new.dependencies, e.Issued d) : (e.withClue new).WellFormed := by
  have hlt : ∀ i, e.Issued i → i.serial < new.id.serial := by
    intro i hi
    have hle := h.serial_le hi
    rw [hs, h.allocated]
    omega
  have hnot : ¬ e.Issued new.id := fun hi => Nat.lt_irrefl _ (hlt _ hi)
  have hmem : ∀ c, c ∈ (e.withClue new).clues ↔ (∃ b ∈ e.clues, new.link b = c) ∨ c = new := by
    simp [Engine.withClue]
  constructor
  case allocated =>
    simp [Engine.withClue, h.allocated]
  case serial =>
    intro k c hc
    rw [Engine.withClue, List.getElem?_append] at hc
    split at hc
    · rw [List.getElem?_map] at hc
      obtain ⟨b, hb, rfl⟩ := Option.map_eq_some_iff.1 hc
      rw [Clue.id_link]
      exact h.serial k b hb
    · rename_i hk
      rw [List.length_map] at hk hc
      obtain ⟨hz, rfl⟩ : k - e.clues.length = 0 ∧ new = c := by
        rw [List.getElem?_singleton] at hc
        split at hc
        · exact ⟨‹_›, Option.some.inj hc⟩
        · cases hc
      rw [hs, h.allocated]
      omega
  case dependencies =>
    intro c hc d hdc
    rw [issued_withClue]
    rcases (hmem c).1 hc with ⟨b, hb, rfl⟩ | rfl
    · rw [Clue.dependencies_link] at hdc
      rw [Clue.id_link]
      exact (h.dependencies b hb d hdc).imp .inl id
    · exact ⟨.inl (hd d hdc), hlt d (hd d hdc)⟩
  case dependents =>
    intro c hc i
    have hr : (∃ d ∈ (e.withClue new).clues, d.id = i ∧ c.id ∈ d.dependencies) ↔
        (∃ d ∈ e.clues, d.id = i ∧ c.id ∈ d.dependencies) ∨
          (new.id = i ∧ c.id ∈ new.dependencies) := by
      simp [Engine.withClue, or_and_right, exists_or]
    rw [hr]
    rcases (hmem c).1 hc with ⟨b, hb, rfl⟩ | rfl
    · rw [Clue.mem_dependents_link, h.dependents b hb, Clue.id_link, or_comm, and_comm,
        eq_comm (a := i)]
    · rw [hn]
      refine iff_of_false (OrderedSet.not_mem_empty i) ?_
      rintro (⟨d, hdm, -, hc⟩ | ⟨-, hc⟩)
      · exact hnot (h.dependencies d hdm _ hc).1
      · exact hnot (hd _ hc)
  case pending =>
    intro i hi
    rw [issued_withClue]
    rcases OrderedSet.mem_insert.1 hi with rfl | hi
    · exact .inr rfl
    · exact .inl (h.pending i hi)

theorem WellFormed.addClue_ok (h : e.WellFormed) {kind : String} {source : σ} {constant : κ}
    {ds : List ClueId} {r : ClueId × Engine σ κ × List (Event σ κ)}
    (ha : e.addClue kind source constant ds = .ok r) :
    (∀ d ∈ ds, e.Issued d) ∧ r = ((e.supply.allocate kind).1,
      e.withClue (e.draft kind source constant ds),
      [.clueAdded (e.supply.allocate kind).1 ds.length]) := by
  rw [h.addClue_eq] at ha
  cases hf : ds.find? fun d => (e.find? d).isNone with
  | some d => simp [hf] at ha
  | none =>
    rw [hf] at ha
    cases ha
    exact ⟨h.issued_of_find? hf, rfl⟩

theorem WellFormed.addClue (h : e.WellFormed) {kind : String} {source : σ} {constant : κ}
    {ds : List ClueId} {r : ClueId × Engine σ κ × List (Event σ κ)}
    (ha : e.addClue kind source constant ds = .ok r) : r.2.1.WellFormed := by
  obtain ⟨hd, rfl⟩ := h.addClue_ok ha
  exact h.withClue rfl rfl hd

end Engine
end TypeClues
