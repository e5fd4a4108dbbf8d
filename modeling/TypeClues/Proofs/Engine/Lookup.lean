import TypeClues.Proofs.Engine.Separation

/-!
# Known and unknown ids

The clues of an engine are those that were asked for and granted, in this order. So an id is known
if it has been returned before, whatever its numbers are and whoever else may have issued it. A
command that names an unknown id is refused, and it is as if it had never been given.
-/
namespace TypeClues.Engine
variable {σ κ : Type} {e e' : Engine σ κ}

/-- The clue that a command has asked for, with its kind, if the reply grants it. -/
def Command.granted? : Command σ κ → Reply σ κ → Option (String × Entry σ κ)
  | .clue kind source constant dependencies, .created id =>
    some (kind, ⟨id, source, constant, dependencies⟩)
  | _, _ => none

def Reply.isRefusal : Reply σ κ → Bool
  | .unknown _ => true
  | _ => false

def grants (limit : Nat) (logger : Logger) (e : Engine σ κ) (cs : List (Command σ κ)) :
    List (String × Entry σ κ) :=
  (cs.zip (session limit logger e cs)).filterMap fun x => x.1.granted? x.2.reply

section
variable (limit : Nat) (logger : Logger) (e : Engine σ κ) (c : Command σ κ)
  (cs : List (Command σ κ))

theorem reply_turn : (e.turn limit logger c).1.reply = (e.perform limit c).1 := rfl

theorem zip_session_cons :
    (c :: cs).zip (session limit logger e (c :: cs)) =
      (c, (e.turn limit logger c).1) :: cs.zip (session limit logger (e.perform limit c).2.1 cs) :=
  rfl

theorem grants_cons :
    grants limit logger e (c :: cs) =
      (c.granted? (e.perform limit c).1).toList ++
        grants limit logger (e.perform limit c).2.1 cs := by
  rw [grants, zip_session_cons, List.filterMap_cons, reply_turn]
  cases c.granted? (e.perform limit c).1 <;> rfl

end

/-! ### The clues that were granted -/

def granted (e : Engine σ κ) : List (String × Entry σ κ) := e.clues.map fun c => (c.kind, c.entry)

theorem Evolves.granted (h : Evolves e e') : e'.granted = e.granted := h.map_eq fun _ => rfl

theorem granted_withClue (new : Clue σ κ) :
    (e.withClue new).granted = e.granted ++ [(new.kind, new.entry)] := by
  simp [Engine.granted, withClue, Function.comp_def, Clue.entry_link, Clue.kind]

theorem map_id_granted : e.granted.map (fun x => x.2.id) = e.ids := by
  rw [granted, List.map_map]
  rfl

theorem WellFormed.granted_perform (he : e.WellFormed) (limit : Nat) (c : Command σ κ) :
    (e.perform limit c).2.1.granted = e.granted ++ (c.granted? (e.perform limit c).1).toList := by
  cases c with
  | rule r => exact (List.append_nil _).symm
  | clue kind source constant ds =>
    rw [perform]
    cases ha : e.addClue kind source constant ds with
    | error u => exact (List.append_nil _).symm
    | ok r =>
      obtain ⟨-, rfl⟩ := he.addClue_ok ha
      exact granted_withClue _
  | process =>
    rw [perform]
    cases hr : e.process limit with
    | none => exact (List.append_nil _).symm
    | some r =>
      have hv := evolves_steps (steps_of_settle hr).1
      exact hv.granted.trans (List.append_nil _).symm
  | query id =>
    rw [perform]
    cases e.query id <;> exact (List.append_nil _).symm

theorem WellFormed.granted_foldl (he : e.WellFormed) (limit : Nat) (logger : Logger)
    (cs : List (Command σ κ)) :
    (cs.foldl (fun e c => (e.perform limit c).2.1) e).granted =
      e.granted ++ grants limit logger e cs := by
  induction cs generalizing e with
  | nil => exact (List.append_nil _).symm
  | cons c cs ih =>
    have hp := he.leads (leads_perform limit e c)
    rw [List.foldl_cons, ih hp, he.granted_perform, grants_cons, List.append_assoc]

theorem granted_drive (limit : Nat) (logger : Logger) (p : Policy) (cs : List (Command σ κ)) :
    (drive limit p cs).1.granted = grants limit logger { policy := p } cs := by
  have hd : (drive limit p cs).1 =
      cs.foldl (fun e c => (e.perform limit c).2.1) { policy := p } := by
    rw [drive]
    exact (List.foldl_hom Prod.fst fun _ _ => rfl).symm
  rw [hd, (wellFormed_empty p).granted_foldl limit logger]
  rfl

/-! ### What is answered -/

theorem WellFormed.exists_query_iff (he : e.WellFormed) (id : ClueId) :
    (∃ c, e.query id = .ok c) ↔ e.Issued id := by
  rw [← he.isSome_find?_iff, query]
  cases e.find? id <;> simp

theorem WellFormed.query_of_not_issued (he : e.WellFormed) {id : ClueId} (hi : ¬ e.Issued id) :
    e.query id = .error ⟨id⟩ := by
  rw [← he.isSome_find?_iff, Option.not_isSome_iff_eq_none] at hi
  rw [query, hi]

theorem WellFormed.query_of_mem (he : e.WellFormed) {c : Clue σ κ} (hc : c ∈ e.clues) :
    e.query c.id = .ok c := by
  rw [query, find?_eq_some_iff.2 ⟨he.at?_of_mem hc, rfl⟩]

theorem WellFormed.nodup_ids (he : e.WellFormed) : e.ids.Nodup := by
  rw [List.nodup_iff_getElem?_ne_getElem?]
  intro i j hij hj heq
  have hlen : j < e.clues.length := by simpa [ids] using hj
  have hcj := List.getElem?_eq_getElem hlen
  rw [ids, List.getElem?_map, List.getElem?_map, hcj] at heq
  obtain ⟨c, hci, hid⟩ := Option.map_eq_some_iff.1 heq
  have hi := he.serial i c hci
  rw [hid, he.serial j _ hcj] at hi
  omega

theorem WellFormed.exists_addClue_iff (he : e.WellFormed) (kind : String) (source : σ)
    (constant : κ) (ds : List ClueId) :
    (∃ r, e.addClue kind source constant ds = .ok r) ↔ ∀ d ∈ ds, e.Issued d := by
  constructor
  · rintro ⟨r, hr⟩
    exact (he.addClue_ok hr).1
  · intro hd
    have hr := he.request_of_issued hd kind source constant
    rw [Engine.request] at hr
    cases ha : e.addClue kind source constant ds with
    | error u => simp [ha] at hr
    | ok r => exact ⟨r, rfl⟩

theorem WellFormed.addClue_of_not_issued (he : e.WellFormed) {before : List ClueId} {d : ClueId}
    (hb : ∀ b ∈ before, e.Issued b) (hd : ¬ e.Issued d) (kind : String) (source : σ) (constant : κ)
    (after : List ClueId) :
    e.addClue kind source constant (before ++ d :: after) = .error ⟨d⟩ := by
  have hf : (before ++ d :: after).find? (fun d => (e.find? d).isNone) = some d := by
    rw [List.find?_append, List.find?_cons_of_pos, Option.or_eq_some_iff]
    · right
      refine ⟨List.find?_eq_none.2 fun b hm => ?_, rfl⟩
      simpa [Option.isSome_iff_ne_none] using he.isSome_find?_iff.2 (hb b hm)
    · simpa [← he.isSome_find?_iff] using hd
  rw [Engine.addClue, hf]

/-! ### What a refusal leaves behind -/

theorem perform_of_refusal {limit : Nat} {c : Command σ κ}
    (h : (e.perform limit c).1.isRefusal) : (e.perform limit c).2 = (e, []) := by
  cases c with
  | rule r => cases h
  | clue kind source constant ds =>
    rw [perform] at h ⊢
    cases ha : e.addClue kind source constant ds with
    | error u => rfl
    | ok r =>
      rw [ha] at h
      cases h
  | process =>
    rw [perform] at h
    cases hr : e.process limit <;> simp [hr, Reply.isRefusal] at h
  | query id =>
    rw [perform]
    cases e.query id <;> rfl

/-- Without the commands that are refused, a session goes on in the same way. -/
theorem session_served (limit : Nat) (logger : Logger) (e : Engine σ κ) (cs : List (Command σ κ)) :
    let served := (cs.zip (session limit logger e cs)).filter fun x => !x.2.reply.isRefusal
    session limit logger e (served.map Prod.fst) = served.map Prod.snd := by
  induction cs generalizing e with
  | nil => rfl
  | cons c cs ih =>
    simp only [zip_session_cons, List.filter_cons, reply_turn]
    by_cases h : (e.perform limit c).1.isRefusal
    · rw [perform_of_refusal h]
      simpa [h] using ih e
    · have hn : (e.turn limit logger c).2 = (e.perform limit c).2.1 := rfl
      simpa [h, session, hn] using ih (e.perform limit c).2.1

/-- After any commands and any number of steps, the known ids are those that have been returned for
clues. A query answers about the clue that its id was returned for, and any other id is unknown.
A clue is refused for its first unknown dependency, and otherwise granted. A refusal changes nothing
and leaves no trace: without the refused commands, all others are answered as they are with them. -/
theorem refuses_unknown_ids (limit : Nat) (logger : Logger) (p : Policy) (cs : List (Command σ κ))
    (h : Steps (drive limit p cs).1 e) :
    let granted := grants limit logger { policy := p } cs
    let known := granted.map fun x => x.2.id
    known.Nodup ∧
      (∀ id, (∃ c, e.query id = .ok c) ↔ id ∈ known) ∧
      (∀ id, id ∉ known → e.query id = .error ⟨id⟩) ∧
      (∀ x ∈ granted, ∃ c ∈ e.clues, e.query x.2.id = .ok c ∧ c.kind = x.1 ∧ c.entry = x.2 ∧
        ∀ i, i ∈ c.dependents ↔ ∃ y ∈ granted, y.2.id = i ∧ x.2.id ∈ y.2.dependencies) ∧
      (∀ kind source constant ds,
        (∃ r, e.addClue kind source constant ds = .ok r) ↔ ∀ d ∈ ds, d ∈ known) ∧
      (∀ kind source constant before d after, (∀ b ∈ before, b ∈ known) → d ∉ known →
        ∀ limit logger,
          e.turn limit logger (.clue kind source constant (before ++ d :: after)) =
            ({ reply := .unknown ⟨d⟩
               clues := e.clues.length
               pending := e.pending.size
               seen := []
               written := [] }, e)) ∧
      ∀ limit logger (more : List (Command σ κ)),
        let served := (more.zip (session limit logger e more)).filter fun x => !x.2.reply.isRefusal
        session limit logger e (served.map Prod.fst) = served.map Prod.snd := by
  intro granted known
  have hv := evolves_steps h
  have he : e.WellFormed := (history_drive limit p cs).wellFormed.evolves hv
  have hg : e.granted = granted := hv.granted.trans (granted_drive limit logger p cs)
  have hids : e.ids = known := by rw [← map_id_granted, hg]
  have hk : ∀ id, e.Issued id ↔ id ∈ known := by
    intro id
    rw [← hids, mem_ids]
  refine ⟨hids ▸ he.nodup_ids, ?_, ?_, ?_, ?_, ?_,
    fun limit logger => session_served limit logger e⟩
  · intro id
    rw [he.exists_query_iff, hk]
  · intro id hn
    rw [← hk] at hn
    exact he.query_of_not_issued hn
  · intro x hx
    rw [← hg] at hx
    obtain ⟨c, hc, rfl⟩ := List.mem_map.1 hx
    refine ⟨c, hc, he.query_of_mem hc, rfl, rfl, fun i => ?_⟩
    rw [he.dependents c hc, ← hg]
    simp [Engine.granted, Clue.entry]
  · intro kind source constant ds
    simp only [he.exists_addClue_iff, hk]
  · intro kind source constant before d after hb hd limit logger
    simp only [← hk] at hb hd
    rw [turn, perform, he.addClue_of_not_issued hb hd]
    rfl

/-- A hole, pins on ids that no clue has, and a pin on the hole. -/
def forgedPins : List (Command String (Constant Unit)) :=
  [.clue "Hole" "a" nothing [], .clue "Pin" "b" nothing [⟨"Hole", 1, 0⟩],
    .clue "Pin" "c" nothing [hole, ⟨"Pin", 1, 2⟩], .clue "Pin" "d" nothing [hole]]

/-- An id with the place of the hole is unknown nevertheless, and the pins that were refused have
not used up a number. -/
theorem refuses_unknown_ids_forged_pins :
    ∃ e, Steps (drive 3 {} forgedPins).1 e ∧ e.at? ⟨"Hole", 1, 0⟩ = e.at? hole ∧
      e.query ⟨"Hole", 1, 0⟩ = .error ⟨⟨"Hole", 1, 0⟩⟩ ∧
      (∃ c, e.query ⟨"Pin", 1, 2⟩ = .ok c ∧ c.source = "d" ∧ c.dependencies = [hole]) ∧
      ∀ logger, (e.turn 3 logger (.clue "Pin" "e" nothing
        [⟨"Pin", 1, 2⟩, ⟨"Pin", 2, 2⟩, ⟨"Hole", 1, 0⟩])).1.reply = .unknown ⟨⟨"Pin", 2, 2⟩⟩ := by
  have hknown : (grants 3 {} { policy := {} } forgedPins).map (fun x => x.2.id) =
      [hole, ⟨"Pin", 1, 2⟩] := by
    decide +kernel
  have hpin : ∃ x ∈ grants 3 {} { policy := {} } forgedPins, x.2.id = ⟨"Pin", 1, 2⟩ ∧
      x.2.source = "d" ∧ x.2.dependencies = [hole] := by
    decide +kernel
  have hstep : (drive 3 {} forgedPins).1.step?.isSome := by
    decide +kernel
  obtain ⟨r, hr⟩ := Option.isSome_iff_exists.1 hstep
  have hs : Steps (drive 3 {} forgedPins).1 r.1 := .single ⟨r.2, hr⟩
  obtain ⟨-, -, hunknown, hfound, -, hrefused, -⟩ := refuses_unknown_ids 3 {} {} forgedPins hs
  rw [hknown] at hunknown hrefused
  obtain ⟨x, hx, hid, hsource, hdeps⟩ := hpin
  obtain ⟨c, -, hc, -, hentry, -⟩ := hfound x hx
  rw [hid] at hc
  rw [← hentry] at hsource hdeps
  refine ⟨r.1, hs, rfl, hunknown _ (by decide), ⟨c, hc, hsource, hdeps⟩, fun logger => ?_⟩
  have ht := hrefused "Pin" "e" nothing [⟨"Pin", 1, 2⟩] ⟨"Pin", 2, 2⟩ [⟨"Hole", 1, 0⟩]
    (by decide) (by decide) 3 logger
  exact congrArg (fun t => t.1.reply) ht

end TypeClues.Engine
