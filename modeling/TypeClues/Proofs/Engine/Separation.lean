import Mathlib.Data.List.Induction
import TypeClues.Proofs.Engine.Arena
import TypeClues.Proofs.Engine.Parts

/-!
# Parts by themselves

Asking only for the clues of an independent part, in the same order and with the new ids of their
dependencies, gives an engine that mirrors the part before any processing. So it comes to an end if
the engine with all clues does, and every clue of the part ends there with the same type and the
same errors.
-/
namespace TypeClues
variable {σ κ : Type}

/-- A clue as it was asked for. -/
structure Entry (σ κ : Type) where
  id : ClueId
  source : σ
  constant : κ
  dependencies : List ClueId

namespace Entry

def rename (ρ : ClueId → ClueId) (x : Entry σ κ) : Entry σ κ :=
  { x with id := ρ x.id, dependencies := x.dependencies.map ρ }

def again (ρ : ClueId → ClueId) (x : Entry σ κ) : Engine.Move σ κ :=
  .create x.id.word x.source x.constant (x.dependencies.map ρ)

end Entry

namespace Clue

def entry (c : Clue σ κ) : Entry σ κ := ⟨c.id, c.source, c.constant, c.dependencies⟩

variable {c d : Clue σ κ}

theorem id_of_entry (h : c.entry = d.entry) : c.id = d.id := congrArg Entry.id h

theorem dependencies_of_entry (h : c.entry = d.entry) : c.dependencies = d.dependencies :=
  congrArg Entry.dependencies h

theorem eq_of_entry (h : c.entry = d.entry) (hd : c.dependents = d.dependents)
    (ht : c.type = d.type) (he : c.errors = d.errors) : c = d := by
  cases c
  cases d
  simp_all [entry]

theorem entry_link (new c : Clue σ κ) : (new.link c).entry = c.entry := by
  rw [link]
  split <;> rfl

end Clue

namespace Engine
variable {e₀ e e' f : Engine σ κ} {A : ClueId → Prop} {ρ : ClueId → ClueId} {x : Entry σ κ}
  {l l' : List (Entry σ κ)}

def entries (e : Engine σ κ) : List (Entry σ κ) := e.clues.map Clue.entry

theorem map_id_entries : e.entries.map Entry.id = e.ids := by
  rw [entries, List.map_map]
  rfl

theorem Evolves.entries (h : Evolves e e') : e'.entries = e.entries := h.map_eq fun _ => rfl

theorem entries_withClue (new : Clue σ κ) : (e.withClue new).entries = e.entries ++ [new.entry] := by
  simp [Engine.entries, Engine.withClue, Function.comp_def, Clue.entry_link]

theorem WellFormed.serial_entry (he : e.WellFormed) (hl : e.entries = l ++ x :: l') :
    x.id.serial = l.length + 1 := by
  have hx : e.entries[l.length]? = some x := by simp [hl]
  rw [Engine.entries, List.getElem?_map, Option.map_eq_some_iff] at hx
  obtain ⟨c, hc, rfl⟩ := hx
  exact he.serial l.length c hc

theorem WellFormed.mem_older (he : e.WellFormed) (hl : e.entries = l ++ x :: l') {d : ClueId}
    (hd : d ∈ x.dependencies) : ∃ y ∈ l, y.id = d := by
  have hx : x ∈ e.entries := by simp [hl]
  have hs := he.serial_entry hl
  obtain ⟨c, hc, rfl⟩ := List.mem_map.1 hx
  obtain ⟨⟨b, hb, rfl⟩, hlt⟩ := he.dependencies c hc d hd
  obtain ⟨k, hk⟩ := List.mem_iff_getElem?.1 hb
  have hlen : k < l.length := by
    have hbs := he.serial k b hk
    have hcs : c.id.serial = l.length + 1 := hs
    omega
  have hy : e.entries[k]? = some b.entry := by rw [Engine.entries, List.getElem?_map, hk]; rfl
  rw [hl, List.getElem?_append_left hlen] at hy
  exact ⟨b.entry, List.mem_of_getElem? hy, rfl⟩

/-! ### Asking for clues -/

/-- Clues have been asked for, and nothing was processed yet. -/
structure Fresh (e₀ e : Engine σ κ) : Prop where
  policy : e.policy = e₀.policy
  rules : e.rules = e₀.rules
  wellFormed : e.WellFormed
  numbered : e.Numbered
  clue : ∀ c ∈ e.clues, c.type = .mostGeneral ∧ c.errors = [] ∧ c.id ∈ e.pending

theorem Fresh.mem_pending_iff (h : Fresh e₀ e) {i : ClueId} : i ∈ e.pending ↔ e.Issued i := by
  constructor
  · exact h.wellFormed.pending i
  · rintro ⟨c, hc, rfl⟩
    exact (h.clue c hc).2.2

theorem Fresh.request (h : Fresh e₀ e) (kind : String) (source : σ) (constant : κ)
    (ds : List ClueId) : Fresh e₀ (e.request kind source constant ds).2 := by
  rw [Engine.request]
  cases ha : e.addClue kind source constant ds with
  | error u => exact h
  | ok r =>
    obtain ⟨hd, rfl⟩ := h.wellFormed.addClue_ok ha
    refine ⟨h.policy, h.rules, h.wellFormed.withClue rfl rfl hd, h.numbered.withClue rfl, ?_⟩
    intro c hc
    simp only [Engine.withClue, List.mem_append, List.mem_map, List.mem_singleton] at hc
    simp only [Engine.withClue, OrderedSet.mem_insert]
    rcases hc with ⟨b, hb, rfl⟩ | rfl
    · obtain ⟨ht, herr, hp⟩ := h.clue b hb
      rw [Clue.type_link, Clue.errors_link, Clue.id_link]
      exact ⟨ht, herr, .inr hp⟩
    · exact ⟨rfl, rfl, .inl rfl⟩

theorem Fresh.requests (h : Fresh e₀ e) (ms : List (Move σ κ)) :
    Fresh e₀ (Engine.requests ms e).2 := by
  induction ms generalizing e with
  | nil => exact h
  | cons m ms ih =>
    cases m with
    | create kind source constant ds => exact ih (h.request kind source constant ds)
    | process => exact ih h

theorem foldl_addRule (rules : List (Rule κ)) :
    rules.foldl (fun e r => (e.addRule r).1) e = { e with rules := e.rules ++ rules } := by
  induction rules generalizing e with
  | nil => simp
  | cons r rules ih =>
    rw [List.foldl_cons, ih]
    simp [addRule]

theorem fresh_rules (p : Policy) (rules : List (Rule κ)) :
    let e : Engine σ κ := rules.foldl (fun e r => (e.addRule r).1) { policy := p }
    Fresh e e ∧ e.entries = [] := by
  intro e
  have he : e = { policy := p, rules } := foldl_addRule rules
  have hw : e.WellFormed := wellFormed_rules p rules
  rw [he] at hw ⊢
  exact ⟨⟨rfl, rfl, hw, .empty p rules, fun _ hc => absurd hc List.not_mem_nil⟩, rfl⟩

theorem WellFormed.request_of_issued (he : e.WellFormed) {ds : List ClueId}
    (hd : ∀ d ∈ ds, e.Issued d) (kind : String) (source : σ) (constant : κ) :
    e.request kind source constant ds =
      (.ok (e.supply.allocate kind).1, e.withClue (e.draft kind source constant ds)) := by
  have hf : (ds.find? fun d => (e.find? d).isNone) = none := by
    rw [List.find?_eq_none]
    intro d hm
    have hs := he.isSome_find?_iff.2 (hd d hm)
    simpa [Option.isSome_iff_ne_none] using hs
  rw [Engine.request, he.addClue_eq, hf]

/-! ### Asking for a part -/

section
variable (A) [DecidablePred A]

/-- The requests for clues of a part, with other ids of their dependencies: those that were answered
with an id of the part. -/
def restrict (ρ : ClueId → ClueId) :
    List (Move σ κ) → List (Except UnknownClue ClueId) → List (Move σ κ)
  | .create kind source constant dependencies :: ms, .ok i :: answers =>
    if A i then
      .create kind source constant (dependencies.map ρ) :: restrict ρ ms answers
    else restrict ρ ms answers
  | .create .. :: ms, .error _ :: answers => restrict ρ ms answers
  | .process :: ms, answers => restrict ρ ms answers
  | _, _ => []

/-- The id that a clue has if only the clues of a part are asked for: the next one for its word
after the words of the older clues of the part. -/
def partId (e : Engine σ κ) (i : ClueId) : ClueId :=
  (Supply.allocate i.word ⟨(((e.ids.take i.slot).filter fun j => A j).map Allocation.word).reverse⟩).1

end

section
variable [DecidablePred A]

theorem Evolves.partId (h : Evolves e e') : e'.partId A = e.partId A := by
  funext i
  rw [Engine.partId, Engine.partId, h.ids]

theorem WellFormed.restrict_requests (he : e.WellFormed) (ms : List (Move σ κ)) :
    ∃ l, (requests ms e).2.entries = e.entries ++ l ∧
      restrict A ρ ms (requests ms e).1 = (l.filter fun x => A x.id).map (Entry.again ρ) := by
  induction ms generalizing e with
  | nil => exact ⟨[], (List.append_nil _).symm, rfl⟩
  | cons m ms ih =>
    cases m with
    | process => exact ih he
    | create kind source constant ds =>
      obtain ⟨l, hl, hr⟩ := ih (he.request kind source constant ds)
      simp only [requests, Engine.request] at hl hr ⊢
      cases ha : e.addClue kind source constant ds with
      | error u =>
        rw [ha] at hl hr
        exact ⟨l, hl, hr⟩
      | ok r =>
        rw [ha] at hl hr
        obtain ⟨-, rfl⟩ := he.addClue_ok ha
        simp only [entries_withClue, List.append_assoc] at hl
        refine ⟨_ :: l, hl, ?_⟩
        simp only [restrict, hr]
        have hid : (e.draft kind source constant ds).entry.id = (e.supply.allocate kind).1 := rfl
        rw [List.filter_cons, hid]
        by_cases hA : A (e.supply.allocate kind).1
        · simp only [hA, if_true, decide_true, List.map_cons]
          rfl
        · simp only [hA, if_false, decide_false, Bool.false_eq_true]

theorem slot_partId (i : ClueId) :
    (e.partId A i).slot = ((e.ids.take i.slot).filter fun j => A j).length := by
  simp [Engine.partId, Supply.allocate, Supply.allocated, Allocation.slot]

theorem length_filter_take_lt {α : Type} {p : α → Bool} {l : List α} {i j : Nat} {a : α}
    (ha : l[i]? = some a) (hp : p a) (hij : i < j) :
    ((l.take i).filter p).length < ((l.take j).filter p).length := by
  have hpre : l.take (i + 1) <+: l.take j := List.take_prefix_take_left hij
  have hle := (hpre.filter p).length_le
  rw [List.take_add_one, ha, List.filter_append] at hle
  exact Nat.lt_of_succ_le (by simpa [hp] using hle)

theorem WellFormed.part_of_closed (he : e.WellFormed)
    (hA : ∀ c ∈ e.clues, A c.id → (∀ d ∈ c.dependencies, A d) ∧ ∀ d ∈ c.dependents, A d) :
    Part e A (e.partId A) where
  closed c hc d hd := by
    constructor
    · intro hAd
      obtain ⟨b, hb, rfl⟩ := (he.dependencies c hc d hd).1
      exact (hA b hb hAd).2 c.id ((he.dependents b hb c.id).2 ⟨c, hc, rfl, hd⟩)
    · intro hAc
      exact (hA c hc hAc).1 d hd
  word i _ _ := rfl
  older i j hi _ hAi _ hlt := by
    rw [slot_partId, slot_partId]
    exact length_filter_take_lt (he.getElem?_ids hi) (by simpa using hAi) hlt

theorem WellFormed.partId_eq (he : e.WellFormed) (hl : e.entries = l ++ x :: l') (hn : f.Numbered)
    (hf : f.entries = (l.filter fun y => A y.id).map (Entry.rename (e.partId A))) :
    (f.supply.allocate x.id.word).1 = e.partId A x.id := by
  have hslot : x.id.slot = (l.map Entry.id).length := by simp [Allocation.slot, he.serial_entry hl]
  have hids : (e.ids.take x.id.slot).filter (fun j => A j) =
      (l.filter fun y => A y.id).map Entry.id := by
    rw [hslot, ← map_id_entries, hl, List.map_append, List.take_left, List.filter_map]
    rfl
  have hs : f.supply = ⟨f.supply.issued⟩ := rfl
  rw [hs, hn.issued, ← map_id_entries, hf, Engine.partId, hids]
  simp only [List.map_map]
  rfl

theorem Fresh.requests_part (h₀ : Fresh e₀ e₀) (hnil : e₀.entries = []) (he : e.WellFormed)
    (hp : Part e A (e.partId A)) (hl : e.entries = l ++ l') :
    let kept := l.filter fun x => A x.id
    let r := Engine.requests (kept.map (Entry.again (e.partId A))) e₀
    r.1 = (kept.map fun x => .ok (e.partId A x.id)) ∧
      r.2.entries = kept.map (Entry.rename (e.partId A)) := by
  induction l using List.reverseRecOn generalizing l' with
  | nil => exact ⟨rfl, hnil⟩
  | append_singleton l x ih =>
    have hlx : e.entries = l ++ x :: l' := by simp [hl]
    obtain ⟨ha, hent⟩ := ih hlx
    by_cases hA : A x.id
    · have hk : (l ++ [x]).filter (fun x => A x.id) = l.filter (fun x => A x.id) ++ [x] := by
        simp [List.filter_append, hA]
      have hf := h₀.requests ((l.filter fun x => A x.id).map (Entry.again (e.partId A)))
      simp only [hk, List.map_append, List.map_singleton, requests_append]
      generalize Engine.requests _ e₀ = r at ha hent hf
      have hd : ∀ d ∈ x.dependencies.map (e.partId A), r.2.Issued d := by
        intro d' hd'
        obtain ⟨d, hd, rfl⟩ := List.mem_map.1 hd'
        obtain ⟨y, hy, rfl⟩ := he.mem_older hlx hd
        have hAy : A y.id := by
          have hx : x ∈ e.entries := by simp [hlx]
          obtain ⟨c, hc, rfl⟩ := List.mem_map.1 hx
          exact (hp.closed c hc y.id hd).2 hA
        rw [← mem_ids, ← map_id_entries, hent, List.map_map]
        exact List.mem_map.2 ⟨y, List.mem_filter.2 ⟨hy, by simpa using hAy⟩, rfl⟩
      have hid := he.partId_eq hlx hf.numbered hent
      have hnew := hf.wellFormed.request_of_issued hd x.id.word x.source x.constant
      have hentry : (r.2.draft x.id.word x.source x.constant (x.dependencies.map (e.partId A))).entry =
          x.rename (e.partId A) :=
        congrArg (fun i => (⟨i, x.source, x.constant, x.dependencies.map (e.partId A)⟩ : Entry σ κ)) hid
      simp only [Entry.again, Engine.requests, hnew, entries_withClue, ha, hent, hid, hentry,
        and_self]
    · have hk : (l ++ [x]).filter (fun x => A x.id) = l.filter fun x => A x.id := by
        simp [List.filter_append, hA]
      rw [hk]
      exact ⟨ha, hent⟩

end

/-- The clues of the second engine are those of the part, asked for under the new ids. -/
structure Copies (A : ClueId → Prop) (ρ : ClueId → ClueId) (e f : Engine σ κ) : Prop where
  exists_copy : ∀ c ∈ e.clues, A c.id → ∃ b ∈ f.clues, b.entry = (c.rename ρ).entry
  exists_original : ∀ b ∈ f.clues, ∃ c ∈ e.clues, A c.id ∧ b.entry = (c.rename ρ).entry

theorem copies_of_entries [DecidablePred A]
    (h : f.entries = (e.entries.filter fun x => A x.id).map (Entry.rename ρ)) : Copies A ρ e f where
  exists_copy c hc hA := by
    have hx : c.entry.rename ρ ∈ f.entries := by
      rw [h]
      exact List.mem_map_of_mem (List.mem_filter.2 ⟨List.mem_map_of_mem hc, decide_eq_true hA⟩)
    exact List.mem_map.1 hx
  exists_original b hb := by
    have hx : b.entry ∈ f.entries := List.mem_map_of_mem hb
    rw [h] at hx
    obtain ⟨x, hx, hbx⟩ := List.mem_map.1 hx
    obtain ⟨hx, hA⟩ := List.mem_filter.1 hx
    obtain ⟨c, hc, rfl⟩ := List.mem_map.1 hx
    exact ⟨c, hc, of_decide_eq_true hA, hbx.symm⟩

/-- Dependents correspond, since they are known from the dependencies. -/
theorem Copies.dependents (h : Copies A ρ e f) (he : e.WellFormed) (hf : f.WellFormed)
    (hp : Part e A ρ) {b c : Clue σ κ} (hc : c ∈ e.clues) (hA : A c.id) (hb : b ∈ f.clues)
    (hbc : b.entry = (c.rename ρ).entry) : b.dependents = (c.rename ρ).dependents := by
  ext i
  rw [hf.dependents b hb i, Clue.mem_dependents_rename, Clue.id_of_entry hbc]
  constructor
  · rintro ⟨d, hd, rfl, hm⟩
    obtain ⟨a, ha, hAa, hda⟩ := h.exists_original d hd
    rw [Clue.dependencies_of_entry hda] at hm
    obtain ⟨j, hj, hjc⟩ := List.mem_map.1 hm
    have hji := (he.dependencies a ha j hj).1
    have hAj := (hp.closed a ha j hj).2 hAa
    cases he.rename_inj hp hji ⟨c, hc, rfl⟩ hAj hA hjc
    exact ⟨a.id, (he.dependents c hc a.id).2 ⟨a, ha, rfl, hj⟩, (Clue.id_of_entry hda).symm⟩
  · rintro ⟨j, hj, rfl⟩
    obtain ⟨a, ha, rfl, hm⟩ := (he.dependents c hc j).1 hj
    obtain ⟨d, hd, hda⟩ := h.exists_copy a ha ((hp.closed a ha c.id hm).1 hA)
    refine ⟨d, hd, Clue.id_of_entry hda, ?_⟩
    rw [Clue.dependencies_of_entry hda]
    exact List.mem_map_of_mem hm

theorem Fresh.mirrors (he : Fresh e₀ e) (hf : Fresh e₀ f) (hp : Part e A ρ)
    (h : Copies A ρ e f) : Mirrors A ρ e f where
  policy := hf.policy.trans he.policy.symm
  rules := hf.rules.trans he.rules.symm
  clue := by
    rintro _ ⟨c, hc, rfl⟩ hA
    obtain ⟨b, hb, hbc⟩ := h.exists_copy c hc hA
    obtain ⟨hbt, hbe, -⟩ := hf.clue b hb
    obtain ⟨hct, hce, -⟩ := he.clue c hc
    have heq : b = c.rename ρ := by
      apply Clue.eq_of_entry hbc (h.dependents he.wellFormed hf.wellFormed hp hc hA hb hbc)
      · rw [hbt, ← hct]
        rfl
      · rw [hbe, Clue.rename, hce]
        rfl
    have hat := hf.wellFormed.at?_of_mem hb
    rw [heq] at hat
    rw [he.wellFormed.at?_of_mem hc]
    exact hat
  pending i := by
    rw [hf.mem_pending_iff]
    constructor
    · rintro ⟨b, hb, rfl⟩
      obtain ⟨c, hc, hA, hbc⟩ := h.exists_original b hb
      exact ⟨c.id, he.mem_pending_iff.2 ⟨c, hc, rfl⟩, hA, (Clue.id_of_entry hbc).symm⟩
    · rintro ⟨j, hj, hA, rfl⟩
      obtain ⟨c, hc, rfl⟩ := he.mem_pending_iff.1 hj
      obtain ⟨b, hb, hbc⟩ := h.exists_copy c hc hA
      exact ⟨b, hb, Clue.id_of_entry hbc⟩

/-- A part that no other clue depends on and that depends on no other clue ends as if it were alone.
Let moves with any rules come to an end by processing, and let the part be closed under dependencies
and dependents. Then the requests for clues of the part, with their new ids, come to an end as well.
They are answered with the new ids, and there each clue has the same type and, up to the ids of the
clues that errors are inherited from, the same errors. -/
theorem play_restrict {limit : Nat} {p : Policy} {rules : List (Rule κ)} {ms : List (Move σ κ)}
    {answers : List (Except UnknownClue ClueId)} (A : ClueId → Prop) [DecidablePred A]
    (h : play limit (ms ++ [.process]) (rules.foldl (fun e r => (e.addRule r).1) { policy := p }) =
      some (answers, e'))
    (hA : ∀ c ∈ e'.clues, A c.id → (∀ d ∈ c.dependencies, A d) ∧ ∀ d ∈ c.dependents, A d) :
    let ρ := e'.partId A
    ∃ limit' f', play limit' (restrict A ρ ms answers ++ [.process])
        (rules.foldl (fun e r => (e.addRule r).1) { policy := p }) =
          some ((e'.ids.filter fun i => A i).map fun i => .ok (ρ i), f') ∧
      ∀ c ∈ e'.clues, A c.id → ∃ c', f'.find? (ρ c.id) = some c' ∧ c'.type = c.type ∧
        c'.hasError = c.hasError ∧ c'.errors = c.errors.map (Diagnostic.rename ρ) := by
  intro ρ
  obtain ⟨h₀, hnil⟩ := fresh_rules (σ := σ) p rules
  generalize rules.foldl (fun (e : Engine σ κ) r => (e.addRule r).1) { policy := p } = e₀
    at h h₀ hnil ⊢
  obtain ⟨ha, hs, hn⟩ := (h₀.wellFormed.exists_play_iff ms).1 ⟨limit, h⟩
  -- the engine with all clues before any processing
  have h₁ := h₀.requests ms
  obtain ⟨l, hl, hr⟩ := h₀.wellFormed.restrict_requests (A := A) (ρ := ρ) ms
  rw [hnil, List.nil_append] at hl
  generalize requests ms e₀ = r at ha hs h₁ hl hr
  have hv := evolves_steps hs
  have hρ : ρ = r.2.partId A := hv.partId
  have he' := h₁.wellFormed.evolves hv
  have hp : Part r.2 A ρ := (he'.part_of_closed hA).of_frame hv.frame.symm
  obtain ⟨hans, hent⟩ :=
    h₀.requests_part hnil h₁.wellFormed (hρ ▸ hp) (hl.trans (List.append_nil l).symm)
  rw [← hρ, ← hr, ha] at hans hent
  have hcopies := copies_of_entries (hl ▸ hent)
  obtain ⟨f', hf', hm⟩ := (h₁.mirrors (h₀.requests _) hp hcopies).steps h₁.wellFormed hp hs
  have hnone : f'.step? = none := by
    rw [step?_eq_none_iff] at hn ⊢
    ext i
    simp [hm.pending, hn]
  have hids : (e'.ids.filter fun i => A i) = (l.filter fun x => A x.id).map Entry.id := by
    rw [← map_id_entries, hv.entries, hl, List.filter_map]
    rfl
  obtain ⟨limit', hplay⟩ := (h₀.wellFormed.exists_play_iff _).2 ⟨hans, hf', hnone⟩
  refine ⟨limit', f', ?_, ?_⟩
  · rw [hplay, hids, List.map_map]
    rfl
  · intro c hc hAc
    have hat := hm.at?_rename (he'.at?_of_mem hc) hAc
    exact ⟨c.rename ρ, find?_eq_some_iff.2 ⟨hat, rfl⟩, rfl, Clue.hasError_rename, rfl⟩

/-- Two holes, each with a pin that makes it an integer, and a fault on the second one. -/
def twoHoles : List (Rule (Constant Unit)) × List (Move String (Constant Unit)) :=
  ([pinSame, ⟨"Fault", about "Fault" [.fail "fault" [0]]⟩],
   [.create "Hole" "a" nothing [], .create "Hole" "b" nothing [], .create "Pin" "c" nothing [hole],
    .create "Fault" "d" nothing [⟨"Hole", 2, 2⟩], .create "Pin" "e" nothing [⟨"Hole", 2, 2⟩]])

/-- The second hole becomes the first one when it is alone, and it gets its type there too, and the
fault its error. -/
theorem play_restrict_two_holes :
    let e : Engine String (Constant Unit) :=
      twoHoles.1.foldl (fun e r => (e.addRule r).1) { policy := {} }
    let A := fun i : ClueId => i.serial ∈ [2, 4, 5]
    ∃ r, play 9 (twoHoles.2 ++ [.process]) e = some r ∧ ∃ limit s,
      play limit (restrict A (r.2.partId A) twoHoles.2 r.1 ++ [.process]) e = some s ∧
      (∃ c, s.2.find? hole = some c ∧ c.type = .plain (.atom "Int")) ∧
      ∃ c, s.2.find? ⟨"Fault", 1, 2⟩ = some c ∧ c.errors = [.reported "fault" ["d"]] := by
  intro e A
  have hr : ∃ r ∈ play 9 (twoHoles.2 ++ [.process]) e,
      (∀ c ∈ r.2.clues, A c.id → (∀ d ∈ c.dependencies, A d) ∧ ∀ d ∈ c.dependents.toList, A d) ∧
      (∃ c ∈ r.2.clues, A c.id ∧ r.2.partId A c.id = hole ∧
        c.type = .plain (.atom "Int")) ∧
      ∃ c ∈ r.2.clues, A c.id ∧ r.2.partId A c.id = ⟨"Fault", 1, 2⟩ ∧
        c.errors = [.reported "fault" ["d"]] := by
    decide +kernel
  obtain ⟨⟨answers, e'⟩, hr, hA, ⟨first, hmem, hAh, hid, ht⟩, fault, hmem', hAf, hid', herr⟩ := hr
  rw [Option.mem_def] at hr
  obtain ⟨limit, f, hplay, hsame⟩ := play_restrict A hr hA
  obtain ⟨c, hc, htype, -⟩ := hsame first hmem hAh
  obtain ⟨d, hd, -, -, herrors⟩ := hsame fault hmem' hAf
  rw [hid] at hc
  rw [hid'] at hd
  exact ⟨_, hr, limit, _, hplay, ⟨c, hc, htype.trans ht⟩, d, hd, by rw [herrors, herr]; rfl⟩

end Engine
end TypeClues
