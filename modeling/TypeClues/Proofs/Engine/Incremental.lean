import Mathlib.Logic.Relation
import TypeClues.Proofs.Engine.Graph
import TypeClues.Proofs.Rule.View

/-!
# Incremental processing

A new clue is younger than all others, so a step that older clues ask for is the same step with or
without it: it looks at the same clue, sees the same faces and stores the same types, and the new
clue stays pending. Steps therefore commute with the creation of clues, and processing between
creations ends in the same engine as processing once at the end.
-/
namespace TypeClues.Engine
variable {σ κ : Type} {e e' : Engine σ κ} {new : Clue σ κ}

theorem modify_withClue {f : Clue σ κ → Clue σ κ} (hf : ∀ c, new.link (f c) = f (new.link c))
    {id : ClueId} (h : id.slot < e.clues.length) :
    (e.withClue new).modify id f = (e.modify id f).withClue new := by
  have ha : (e.clues.map new.link ++ [new]).modify id.slot f =
      (e.clues.map new.link).modify id.slot f ++ [new] := by
    apply List.ext_getElem?
    intro k
    by_cases hk : k < e.clues.length
    · simp [List.getElem_modify, List.getElem?_modify, List.getElem?_append_left, hk]
    · have hne : id.slot ≠ k := by omega
      simp [List.getElem?_append, hk, hne]
  simp only [withClue, map_modify hf]
  simp only [modify, ha]

theorem addErrors_withClue {id : ClueId} (ds : List (Diagnostic σ))
    (h : id.slot < e.clues.length) :
    (e.withClue new).addErrors id ds = (e.addErrors id ds).withClue new := by
  apply modify_withClue _ h
  intro c
  simp only [Clue.link]
  split <;> rfl

/-- The dependents woken by a refinement may include the new clue, which is pending anyway. -/
theorem refine_withClue {id : ClueId} (q : Qualified) (h : id.slot < e.clues.length) :
    (e.withClue new).refine id q = ((e.refine id q).1.withClue new, (e.refine id q).2) := by
  rw [refine, refine, at?_withClue h]
  cases hc : e.at? id with
  | none => rfl
  | some c =>
    simp only [Option.map_some, Clue.type_link]
    by_cases hq : c.type.Equivalent q
    · simp only [hq, if_true]
    · simp only [hq, if_false]
      have hm : (e.withClue new).modify id (fun c => { c with type := q.canonical }) =
          (e.modify id fun c => { c with type := q.canonical }).withClue new := by
        apply modify_withClue _ h
        intro c
        simp only [Clue.link]
        split <;> rfl
      have hp : (e.withClue new).pending.union (new.link c).dependents =
          (e.pending.union c.dependents).insert new.id := by
        ext i
        simp only [withClue, OrderedSet.mem_union, OrderedSet.mem_insert, Clue.mem_dependents_link]
        tauto
      rw [hm, hp]
      rfl

theorem refineAll_withClue {l : List (ClueId × Qualified)}
    (h : ∀ p ∈ l, p.1.slot < e.clues.length) :
    refineAll l (e.withClue new) = ((refineAll l e).1.withClue new, (refineAll l e).2) := by
  induction l generalizing e with
  | nil => rfl
  | cons p l ih =>
    have hl : ∀ p' ∈ l, p'.1.slot < (e.refine p.1 p.2).1.clues.length := by
      intro p' hp'
      rw [(evolves_refine p.1 p.2).length]
      exact h p' (List.mem_cons_of_mem p hp')
    simp only [refineAll, refine_withClue p.2 (h p List.mem_cons_self), ih hl]

theorem invoke_withClue (r : Rule κ) {ts : List ClueId} (h : ∀ t ∈ ts, t.slot < e.clues.length) :
    (e.withClue new).invoke r ts = e.invoke r ts := by
  have hf : (ts.filterMap (e.withClue new).at?).map Clue.face = (ts.filterMap e.at?).map Clue.face := by
    rw [List.map_filterMap, List.map_filterMap]
    apply List.filterMap_congr
    intro t ht
    rw [at?_withClue (h t ht), Option.map_map]
    congr 1
    funext c
    simp only [Function.comp, Clue.link]
    split <;> rfl
  have hr := Workspace.run_new_of_face e.policy r.script hf
  simp only [invoke]
  rw [← hr.1, ← hr.2]
  rfl

theorem runRules_withClue {id : ClueId} {ts : List ClueId} (hid : id.slot < e.clues.length)
    (h : ∀ t ∈ ts, t.slot < e.clues.length) (rs : List (Rule κ)) :
    runRules id ts rs (e.withClue new) =
      ((runRules id ts rs e).1.withClue new, (runRules id ts rs e).2) := by
  induction rs generalizing e with
  | nil => rfl
  | cons r rs ih =>
    rw [runRules, runRules, invoke_withClue r h]
    cases (e.invoke r ts).1 with
    | notApplicable d => simp only [ih hid h]
    | failed d => simp only [addErrors_withClue [d] hid]
    | refined types =>
      have hz : ∀ p ∈ ts.zip types, p.1.slot < e.clues.length :=
        fun p hp => h p.1 (List.of_mem_zip hp).1
      have hl := (evolves_refineAll (e := e) (ts.zip types)).length
      simp only [refineAll_withClue hz, ih (hl ▸ hid) (hl ▸ h)]

theorem WellFormed.examine_withClue (he : e.WellFormed) (new : Clue σ κ) {id : ClueId}
    (hid : e.Issued id) :
    (e.withClue new).examine id = ((e.examine id).1.withClue new, (e.examine id).2) := by
  have hs := he.slot_lt hid
  rw [examine, examine, at?_withClue hs]
  cases hc : e.at? id with
  | none => rfl
  | some c =>
    have hd : ∀ d ∈ c.dependencies, d.slot < e.clues.length :=
      fun d hd => he.slot_lt (he.dependencies c (List.mem_of_getElem? hc) d hd).1
    have hf : c.dependencies.filter (e.withClue new).hasError = c.dependencies.filter e.hasError :=
      List.filter_congr fun d hm => hasError_withClue (hd d hm)
    have herr : (new.link c).hasError = c.hasError := by simp [Clue.hasError]
    simp only [Option.map_some, Clue.dependencies_link, hf, herr]
    by_cases hb : c.hasError
    · simp only [hb, if_true]
    · simp only [hb]
      cases c.dependencies.filter e.hasError with
      | nil =>
        apply runRules_withClue hs
        intro t ht
        rcases List.mem_cons.1 ht with rfl | ht
        · exact hs
        · exact hd t ht
      | cons d ds =>
        exact Prod.ext (addErrors_withClue _ hs) rfl

theorem compare_lt_of_serial {a b : ClueId} (h : a.serial < b.serial) : compare a b = .lt := by
  change (compare a.serial b.serial).then _ = .lt
  rw [Nat.compare_eq_lt.2 h]
  rfl

/-- A clue younger than all others leaves the next step as it is and stays pending. -/
theorem WellFormed.step?_withClue (he : e.WellFormed)
    (hs : new.id.serial = e.supply.allocated + 1) {r : Engine σ κ × List (Event σ κ)}
    (h : e.step? = some r) : (e.withClue new).step? = some (r.1.withClue new, r.2) := by
  obtain ⟨id, rest, hp, rfl⟩ := step?_eq_some h
  have hid : e.Issued id := he.pending id ((OrderedSet.mem_of_popLeast? hp).2 (.inl rfl))
  have hlt : compare id new.id = .lt := by
    apply compare_lt_of_serial
    rw [hs, he.allocated]
    exact Nat.lt_succ_of_le (he.serial_le hid)
  have hpop : (e.withClue new).pending.popLeast? = some (id, rest.insert new.id) :=
    OrderedSet.popLeast?_insert hp hlt
  have hw : WellFormed { e with pending := rest } := he.evolves (evolves_pop hp)
  have hx := hw.examine_withClue new hid
  rw [step?, hpop]
  exact congrArg (fun r => some (r.1, Event.dequeued id :: r.2)) hx

def Step (e e' : Engine σ κ) : Prop := ∃ es, e.step? = some (e', es)

abbrev Steps : Engine σ κ → Engine σ κ → Prop := Relation.ReflTransGen Step

theorem Step.unique {a b : Engine σ κ} (ha : Step e a) (hb : Step e b) : a = b := by
  obtain ⟨es, ha⟩ := ha
  obtain ⟨es', hb⟩ := hb
  have h : (a, es) = (b, es') := Option.some.inj (ha.symm.trans hb)
  exact congrArg Prod.fst h

theorem evolves_steps (h : Steps e e') : Evolves e e' := by
  induction h with
  | refl => exact .refl e
  | tail _ hs ih =>
    obtain ⟨es, hs⟩ := hs
    exact ih.trans (evolves_step? hs)

theorem steps_of_settle {limit n : Nat} {r : Engine σ κ × List (Event σ κ)}
    (h : settle limit n e = some r) : Steps e r.1 ∧ r.1.step? = none := by
  induction limit generalizing n e r with
  | zero =>
    rcases settle_cases h with ⟨hs, rfl⟩ | ⟨k, s, rest, hk, -⟩
    · exact ⟨.refl, hs⟩
    · cases hk
  | succ limit ih =>
    rcases settle_cases h with ⟨hs, rfl⟩ | ⟨k, s, rest, hk, hs, hr, rfl⟩
    · exact ⟨.refl, hs⟩
    · cases hk
      obtain ⟨hsteps, hnone⟩ := ih hr
      exact ⟨.head ⟨s.2, hs⟩ hsteps, hnone⟩

theorem exists_settle (h : Steps e e') (hn : e'.step? = none) (n : Nat) :
    ∃ limit es, settle limit n e = some (e', es) := by
  induction h using Relation.ReflTransGen.head_induction_on generalizing n with
  | refl => exact ⟨0, [.settled n], settle_of_none hn 0 n⟩
  | head hs _ ih =>
    obtain ⟨es, hs⟩ := hs
    obtain ⟨limit, es', hl⟩ := ih (n + 1)
    refine ⟨limit + 1, es ++ es', ?_⟩
    rw [settle_of_some hs, hl]
    rfl

theorem settle_of_le {limit limit' n : Nat} (hle : limit ≤ limit')
    {r : Engine σ κ × List (Event σ κ)} (h : settle limit n e = some r) :
    settle limit' n e = some r := by
  induction limit' generalizing limit n e r with
  | zero =>
    have hz : limit = 0 := by omega
    rw [← hz, h]
  | succ m ih =>
    rcases settle_cases h with ⟨hs, rfl⟩ | ⟨k, s, rest, rfl, hs, hr, rfl⟩
    · exact settle_of_none hs _ n
    · rw [settle_of_some hs, ih (by omega) hr]
      rfl

def request (e : Engine σ κ) (kind : String) (source : σ) (constant : κ)
    (dependencies : List ClueId) : Except UnknownClue ClueId × Engine σ κ :=
  match e.addClue kind source constant dependencies with
  | .error u => (.error u, e)
  | .ok r => (.ok r.1, r.2.1)

theorem WellFormed.request (he : e.WellFormed) (kind : String) (source : σ) (constant : κ)
    (ds : List ClueId) : (e.request kind source constant ds).2.WellFormed := by
  rw [Engine.request]
  cases ha : e.addClue kind source constant ds with
  | error u => exact he
  | ok r => exact he.addClue ha

/-- A request is answered alike before and after a step, and the step can be taken after it. -/
theorem WellFormed.request_step (he : e.WellFormed) (h : Step e e') (kind : String) (source : σ)
    (constant : κ) (ds : List ClueId) :
    (e'.request kind source constant ds).1 = (e.request kind source constant ds).1 ∧
      Step (e.request kind source constant ds).2 (e'.request kind source constant ds).2 := by
  obtain ⟨es, h⟩ := h
  have hv : Evolves e e' := evolves_step? h
  have he' := he.evolves hv
  have hf : (fun d => (e'.find? d).isNone) = fun d => (e.find? d).isNone := by
    funext d
    exact he.find?_isNone_eq hv d
  have hd : e'.draft kind source constant ds = e.draft kind source constant ds := by
    simp only [draft, hv.supply]
  rw [Engine.request, Engine.request, he.addClue_eq, he'.addClue_eq, hf, hd, hv.supply]
  cases ds.find? fun d => (e.find? d).isNone with
  | some d => exact ⟨rfl, es, h⟩
  | none => exact ⟨rfl, es, he.step?_withClue rfl h⟩

/-- What a user does with an engine once its rules are there. -/
inductive Move (σ κ : Type) where
  | create (kind : String) (source : σ) (constant : κ) (dependencies : List ClueId)
  | process

def Move.isCreate : Move σ κ → Bool
  | .create .. => true
  | .process => false

/-- Makes the moves in order: the answers to all requests and the engine at the end; `none` if
nothing settles within the limit. -/
def play (limit : Nat) :
    List (Move σ κ) → Engine σ κ → Option (List (Except UnknownClue ClueId) × Engine σ κ)
  | [], e => some ([], e)
  | .create kind source constant dependencies :: ms, e =>
    let r := e.request kind source constant dependencies
    (play limit ms r.2).map fun rest => (r.1 :: rest.1, rest.2)
  | .process :: ms, e => (e.process limit).bind fun r => play limit ms r.1

def requests : List (Move σ κ) → Engine σ κ → List (Except UnknownClue ClueId) × Engine σ κ
  | [], e => ([], e)
  | .create kind source constant dependencies :: ms, e =>
    let r := e.request kind source constant dependencies
    let rest := requests ms r.2
    (r.1 :: rest.1, rest.2)
  | .process :: ms, e => requests ms e

theorem requests_filter (ms : List (Move σ κ)) :
    requests (ms.filter Move.isCreate) e = requests ms e := by
  induction ms generalizing e with
  | nil => rfl
  | cons m ms ih =>
    cases m with
    | create kind source constant ds =>
      rw [List.filter_cons_of_pos rfl]
      simp only [requests, ih]
    | process =>
      rw [List.filter_cons_of_neg (by simp [Move.isCreate])]
      exact ih

theorem requests_append (ms ms' : List (Move σ κ)) :
    requests (ms ++ ms') e = ((requests ms e).1 ++ (requests ms' (requests ms e).2).1,
      (requests ms' (requests ms e).2).2) := by
  induction ms generalizing e with
  | nil => rfl
  | cons m ms ih =>
    cases m with
    | create kind source constant ds => simp only [List.cons_append, requests, ih]
    | process => exact ih

theorem play_of_le {limit limit' : Nat} (hle : limit ≤ limit') {ms : List (Move σ κ)}
    {r : List (Except UnknownClue ClueId) × Engine σ κ} (h : play limit ms e = some r) :
    play limit' ms e = some r := by
  induction ms generalizing e r with
  | nil => exact h
  | cons m ms ih =>
    cases m with
    | create kind source constant ds =>
      rw [play] at h ⊢
      obtain ⟨rest, hr, rfl⟩ := Option.map_eq_some_iff.1 h
      rw [ih hr]
      rfl
    | process =>
      rw [play] at h ⊢
      obtain ⟨s, hs, hr⟩ := Option.bind_eq_some_iff.1 h
      exact Option.bind_eq_some_iff.2 ⟨s, settle_of_le hle hs, ih hr⟩

theorem WellFormed.requests_step (he : e.WellFormed) (h : Step e e') (ms : List (Move σ κ)) :
    (requests ms e').1 = (requests ms e).1 ∧ Step (requests ms e).2 (requests ms e').2 := by
  induction ms generalizing e e' with
  | nil => exact ⟨rfl, h⟩
  | cons m ms ih =>
    cases m with
    | create kind source constant ds =>
      obtain ⟨ha, hs⟩ := he.request_step h kind source constant ds
      obtain ⟨hr, hs⟩ := ih (he.request kind source constant ds) hs
      simp only [requests, ha, hr]
      exact ⟨trivial, hs⟩
    | process => exact ih he h

theorem WellFormed.requests_steps (he : e.WellFormed) (h : Steps e e') (ms : List (Move σ κ)) :
    (requests ms e').1 = (requests ms e).1 ∧ Steps (requests ms e).2 (requests ms e').2 := by
  induction h with
  | refl => exact ⟨rfl, .refl⟩
  | tail hs hstep ih =>
    obtain ⟨hr, hs'⟩ := (he.evolves (evolves_steps hs)).requests_step hstep ms
    exact ⟨hr.trans ih.1, ih.2.tail hs'⟩

/-- If processing ends after more requests, it ends before them, on the way to the same engine. -/
theorem WellFormed.exists_settled (he : e.WellFormed) {ms : List (Move σ κ)}
    (h : Steps (requests ms e).2 e') (hn : e'.step? = none) :
    ∃ e₁, Steps e e₁ ∧ e₁.step? = none ∧ Steps (requests ms e₁).2 e' := by
  generalize hb : (requests ms e).2 = b at h
  induction h using Relation.ReflTransGen.head_induction_on generalizing e with
  | refl =>
    cases hs : e.step? with
    | none => exact ⟨e, .refl, hs, hb ▸ .refl⟩
    | some s =>
      -- the younger clues do not stop the step
      obtain ⟨-, es, hstep⟩ := he.requests_step ⟨s.2, hs⟩ ms
      rw [hb, hn] at hstep
      cases hstep
  | head hstep hrest ih =>
    cases hs : e.step? with
    | none => exact ⟨e, .refl, hs, hb ▸ .head hstep hrest⟩
    | some s =>
      have hes : Step e s.1 := ⟨s.2, hs⟩
      have hb' := (he.requests_step hes ms).2.unique (hb ▸ hstep)
      obtain ⟨e₁, hsteps, hnone, htail⟩ := ih (he.evolves (evolves_step? hs)) hb'
      exact ⟨e₁, .head hes hsteps, hnone, htail⟩

/-- Moves that end with processing come to where processing the bare requests comes. -/
theorem WellFormed.exists_play_iff (he : e.WellFormed) (ms : List (Move σ κ))
    {answers : List (Except UnknownClue ClueId)} :
    (∃ limit, play limit (ms ++ [.process]) e = some (answers, e')) ↔
      (requests ms e).1 = answers ∧ Steps (requests ms e).2 e' ∧ e'.step? = none := by
  induction ms generalizing e answers with
  | nil =>
    constructor
    · rintro ⟨limit, h⟩
      obtain ⟨r, hr, h⟩ := Option.bind_eq_some_iff.1 h
      cases h
      exact ⟨rfl, steps_of_settle hr⟩
    · rintro ⟨rfl, hs, hn⟩
      obtain ⟨limit, es, hl⟩ := exists_settle hs hn 0
      exact ⟨limit, Option.bind_eq_some_iff.2 ⟨(e', es), hl, rfl⟩⟩
  | cons m ms ih =>
    cases m with
    | create kind source constant ds =>
      have hw := he.request kind source constant ds
      simp only [List.cons_append, play, requests]
      constructor
      · rintro ⟨limit, h⟩
        obtain ⟨rest, hr, h⟩ := Option.map_eq_some_iff.1 h
        cases h
        obtain ⟨ha, hs⟩ := (ih hw).1 ⟨limit, hr⟩
        exact ⟨congrArg _ ha, hs⟩
      · rintro ⟨rfl, hs⟩
        obtain ⟨limit, hr⟩ := (ih hw).2 ⟨rfl, hs⟩
        exact ⟨limit, Option.map_eq_some_iff.2 ⟨_, hr, rfl⟩⟩
    | process =>
      constructor
      · rintro ⟨limit, h⟩
        obtain ⟨r, hr, h⟩ := Option.bind_eq_some_iff.1 h
        obtain ⟨hsteps, -⟩ := steps_of_settle hr
        obtain ⟨rfl, hs, hn⟩ := (ih (he.evolves (evolves_steps hsteps))).1 ⟨limit, h⟩
        obtain ⟨ha, hs'⟩ := he.requests_steps hsteps ms
        exact ⟨ha.symm, hs'.trans hs, hn⟩
      · rintro ⟨rfl, hs, hn⟩
        obtain ⟨e₁, hsteps, hnone, htail⟩ := he.exists_settled hs hn
        obtain ⟨limit, es, hl⟩ := exists_settle hsteps hnone 0
        have ha := (he.requests_steps hsteps ms).1
        obtain ⟨limit', hp⟩ := (ih (he.evolves (evolves_steps hsteps))).2 ⟨ha, htail, hn⟩
        refine ⟨max limit limit', Option.bind_eq_some_iff.2 ⟨(e₁, es), ?_, ?_⟩⟩
        · exact settle_of_le (Nat.le_max_left ..) hl
        · exact play_of_le (Nat.le_max_right ..) hp

/-- Processing between requests makes no difference in the end: with any rules that are there from
the start, the moves come to an end if and only if the requests alone, processed once, do, and then
with the same answers and in the same engine, in which nothing is pending. -/
theorem play_iff_batch (p : Policy) (rules : List (Rule κ)) (ms : List (Move σ κ))
    (answers : List (Except UnknownClue ClueId)) (e' : Engine σ κ) :
    let e : Engine σ κ := rules.foldl (fun e r => (e.addRule r).1) { policy := p }
    ((∃ limit, play limit (ms ++ [.process]) e = some (answers, e')) ↔
        ∃ limit, play limit (ms.filter Move.isCreate ++ [.process]) e = some (answers, e')) ∧
      ((∃ limit, play limit (ms ++ [.process]) e = some (answers, e')) → e'.pending = ∅) := by
  intro e
  have he : e.WellFormed := wellFormed_rules p rules
  rw [he.exists_play_iff ms, he.exists_play_iff (ms.filter Move.isCreate), requests_filter,
    step?_eq_none_iff]
  exact ⟨Iff.rfl, fun h => h.2.2⟩

end TypeClues.Engine
