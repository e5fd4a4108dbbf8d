import TypeClues.Proofs.Engine.History

/-!
# Logging on the spot

An engine tells what it does as a list of events, and a logger picks records from it afterwards. The
same work can be done with a logger at hand, which is asked at each event whether to write a record.
Both ways come to the same replies, the same engine and the same records. So the threshold decides
about records only, and a lower one leaves out just those that are above it.
-/
namespace TypeClues

theorem Level.le_trans {a b c : Level} (h : a ≤ b) (h' : b ≤ c) : a ≤ c := Nat.le_trans h h'

theorem Logger.written_append (l : Logger) (records records' : List Record) :
    l.written (records ++ records') = l.written records ++ l.written records' :=
  List.filter_append ..

/-- A logger writes what a more talkative one writes, up to its own threshold. -/
theorem Logger.written_of_le {low high : Level} (h : low ≤ high) (records : List Record) :
    written ⟨low⟩ records = (written ⟨high⟩ records).filter (·.level ≤ low) := by
  rw [written, written, List.filter_filter]
  apply List.filter_congr
  intro r _
  simp only [enabled]
  by_cases hr : r.level ≤ low
  · simp [hr, Level.le_trans hr h]
  · simp [hr]

namespace Engine
variable {σ κ : Type}

/-- What has been observed and written so far. -/
structure Journal (κ : Type) where
  seen : List (Observation κ) := []
  written : List Record := []

/-- The logger decides at once whether the event leaves a record. -/
def Journal.add (l : Logger) (j : Journal κ) (event : Event σ κ) : Journal κ :=
  { seen := j.seen ++ event.observation?.toList
    written := match event.record? with
      | none => j.written
      | some r => if l.enabled r.level then j.written ++ [r] else j.written }

abbrev Logged (κ α : Type) := ReaderT Logger (StateM (Journal κ)) α

def tell (event : Event σ κ) : Logged κ Unit := fun l j => ((), j.add l event)

def observe (o : Observation κ) : Logged κ Unit := fun _ j => ((), { j with seen := j.seen ++ [o] })

def addRuleLive (e : Engine σ κ) (r : Rule κ) : Logged κ (Engine σ κ) := do
  tell (.ruleAdded r.name (e.rules.length + 1) : Event σ κ)
  pure { e with rules := e.rules ++ [r] }

def addClueLive (e : Engine σ κ) (kind : String) (source : σ) (constant : κ)
    (dependencies : List ClueId) : Logged κ (Except UnknownClue (ClueId × Engine σ κ)) :=
  match dependencies.find? fun d => (e.find? d).isNone with
  | some d => pure (.error ⟨d⟩)
  | none => do
    let id := (e.supply.allocate kind).1
    let linked := dependencies.foldl (fun e d => e.addDependent d id) e
    tell (.clueAdded id dependencies.length : Event σ κ)
    pure (.ok (id,
      { linked with
        supply := (e.supply.allocate kind).2
        clues := linked.clues ++ [{ id, source, constant, dependencies }]
        pending := e.pending.insert id }))

def refineLive (e : Engine σ κ) (id : ClueId) (q : Qualified) : Logged κ (Engine σ κ) :=
  match e.at? id with
  | none => pure e
  | some c =>
    if c.type.Equivalent q then pure e
    else do
      let new := q.canonical
      tell (.refined id c.type new : Event σ κ)
      pure { e.modify id (fun c => { c with type := new }) with
        pending := e.pending.union c.dependents }

def refineAllLive : List (ClueId × Qualified) → Engine σ κ → Logged κ (Engine σ κ)
  | [], e => pure e
  | (id, q) :: rest, e => do
    let e ← e.refineLive id q
    refineAllLive rest e

def observeAll : List (Observation κ) → Logged κ Unit
  | [] => pure ()
  | o :: rest => do
    observe o
    observeAll rest

def invokeLive (e : Engine σ κ) (r : Rule κ) (targets : List ClueId) : Logged κ (Verdict σ) := do
  let w : Workspace σ κ := Workspace.run r.script (.new e.policy (targets.filterMap e.at?))
  observeAll w.seen
  pure w.verdict

def runRulesLive (id : ClueId) (targets : List ClueId) :
    List (Rule κ) → Engine σ κ → Logged κ (Engine σ κ)
  | [], e => pure e
  | r :: rest, e => do
    match ← e.invokeLive r targets with
    | .notApplicable d =>
      tell (.notApplicable r.name id d : Event σ κ)
      runRulesLive id targets rest e
    | .failed d =>
      tell (.ruleFailed r.name id d : Event σ κ)
      pure (e.addErrors id [d])
    | .refined types =>
      let e ← refineAllLive (targets.zip types) e
      runRulesLive id targets rest e

def examineLive (e : Engine σ κ) (id : ClueId) : Logged κ (Engine σ κ) := do
  tell (.dequeued id : Event σ κ)
  match e.at? id with
  | none => pure e
  | some c =>
    if c.hasError then pure e
    else
      match c.dependencies.filter e.hasError with
      | [] => runRulesLive id (id :: c.dependencies) e.rules e
      | errored =>
        tell (.inherited id errored.length : Event σ κ)
        pure (e.addErrors id (errored.map .inherited))

def stepLive? (e : Engine σ κ) : Option (Logged κ (Engine σ κ)) :=
  match e.pending.popLeast? with
  | none => none
  | some (id, pending) => some (examineLive { e with pending } id)

/-- What is written before the limit is reached stays written. -/
def settleLive : (limit steps : Nat) → Engine σ κ → Logged κ (Option (Engine σ κ))
  | limit, steps, e =>
    match e.stepLive? with
    | none => do
      tell (.settled steps : Event σ κ)
      pure (some e)
    | some step =>
      match limit with
      | 0 => pure none
      | limit + 1 => do
        let e ← step
        settleLive limit (steps + 1) e

def performLive (limit : Nat) (e : Engine σ κ) :
    Command σ κ → Logged κ (Reply σ κ × Engine σ κ)
  | .rule r => do
    let e ← e.addRuleLive r
    pure (.done, e)
  | .clue kind source constant dependencies => do
    match ← e.addClueLive kind source constant dependencies with
    | .error u => pure (.unknown u, e)
    | .ok r => pure (.created r.1, r.2)
  | .process => do
    match ← settleLive limit 0 e with
    | none => pure (.unsettled, e)
    | some e' => pure (.settled e'.clues, e')
  | .query id =>
    match e.query id with
    | .error u => pure (.unknown u, e)
    | .ok c => pure (.found c, e)

def Reply.isUnsettled : Reply σ κ → Bool
  | .unsettled => true
  | _ => false

def turnLive (limit : Nat) (logger : Logger) (e : Engine σ κ) (c : Command σ κ) :
    Turn σ κ × Engine σ κ :=
  let r := e.performLive limit c logger {}
  ({ reply := r.1.1
     clues := r.1.2.clues.length
     pending := r.1.2.pending.size
     seen := r.2.seen
     written := r.2.written }, r.1.2)

def sessionLive (limit : Nat) (logger : Logger) : Engine σ κ → List (Command σ κ) → List (Turn σ κ)
  | _, [] => []
  | e, c :: cs =>
    let r := e.turnLive limit logger c
    r.1 :: sessionLive limit logger r.2 cs

/-- With any logger the work has this outcome and adds these events to the journal. -/
def Narrates {α : Type} (m : Logged κ α) (a : α) (events : List (Event σ κ)) : Prop :=
  ∀ l j, m l j = (a, events.foldl (Journal.add l) j)

section Narrates
variable {α β : Type} {m : Logged κ α} {f : α → Logged κ β} {a : α} {b : β}
  {events events' : List (Event σ κ)}

theorem narrates_pure (a : α) : Narrates (pure a : Logged κ α) a ([] : List (Event σ κ)) :=
  fun _ _ => rfl

theorem narrates_tell (event : Event σ κ) : Narrates (tell event) () [event] := fun _ _ => rfl

theorem narrates_observe (o : Observation κ) :
    Narrates (observe o) () [(.observed o : Event σ κ)] := fun _ _ => rfl

theorem Narrates.bind (hm : Narrates m a events) (hf : Narrates (f a) b events') :
    Narrates (m >>= f) b (events ++ events') := by
  intro l j
  change f (m l j).1 l (m l j).2 = _
  rw [hm l j, hf l, List.foldl_append]

theorem Journal.add_eq (l : Logger) (j : Journal κ) (event : Event σ κ) :
    j.add l event = ⟨j.seen ++ [event].filterMap Event.observation?,
      j.written ++ l.written ([event].filterMap Event.record?)⟩ := by
  cases event with
  | observed o => simp [add, Event.observation?, Event.record?, Event.level?, Logger.written]
  | _ =>
    simp only [add, Event.observation?, Event.record?, Event.level?, Logger.written, Option.toList,
      Option.map_some, List.filterMap_cons, List.filterMap_nil, List.append_nil, List.filter_cons,
      List.filter_nil]
    split <;> simp

theorem foldl_add (l : Logger) (j : Journal κ) (events : List (Event σ κ)) :
    events.foldl (Journal.add l) j =
      ⟨j.seen ++ events.filterMap Event.observation?,
        j.written ++ l.written (events.filterMap Event.record?)⟩ := by
  induction events generalizing j with
  | nil => simp [Logger.written]
  | cons event events ih =>
    have hcons : event :: events = [event] ++ events := rfl
    simp only [List.foldl_cons, ih, Journal.add_eq, List.append_assoc, ← Logger.written_append,
      ← List.filterMap_append, ← hcons]

end Narrates

theorem narrates_refineLive (e : Engine σ κ) (id : ClueId) (q : Qualified) :
    Narrates (e.refineLive id q) (e.refine id q).1 (e.refine id q).2 := by
  rw [refineLive, refine]
  cases e.at? id with
  | none => exact narrates_pure e
  | some c =>
    by_cases h : c.type.Equivalent q
    · simp only [h, if_true]
      exact narrates_pure e
    · simp only [h, if_false]
      exact (narrates_tell _).bind (narrates_pure _)

theorem narrates_refineAllLive (l : List (ClueId × Qualified)) (e : Engine σ κ) :
    Narrates (refineAllLive l e) (refineAll l e).1 (refineAll l e).2 := by
  induction l generalizing e with
  | nil => exact narrates_pure e
  | cons p l ih => exact (narrates_refineLive e p.1 p.2).bind (ih _)

theorem narrates_observeAll (l : List (Observation κ)) :
    Narrates (observeAll l) () (l.map (.observed : _ → Event σ κ)) := by
  induction l with
  | nil => exact narrates_pure ()
  | cons o l ih => exact (narrates_observe o).bind ih

theorem narrates_invokeLive (e : Engine σ κ) (r : Rule κ) (targets : List ClueId) :
    Narrates (e.invokeLive r targets) (e.invoke r targets).1 (e.invoke r targets).2 := by
  rw [← List.append_nil (e.invoke r targets).2]
  exact (narrates_observeAll _).bind (narrates_pure _)

theorem narrates_runRulesLive (id : ClueId) (targets : List ClueId) (rs : List (Rule κ))
    (e : Engine σ κ) :
    Narrates (runRulesLive id targets rs e) (runRules id targets rs e).1
      (runRules id targets rs e).2 := by
  induction rs generalizing e with
  | nil => exact narrates_pure e
  | cons r rs ih =>
    -- both ways go on by the verdict alone, whatever has been seen on the way to it
    have hi := narrates_invokeLive e r targets
    rw [runRulesLive, runRules]
    generalize e.invoke r targets = invoked at hi
    obtain ⟨verdict, seen⟩ := invoked
    cases verdict with
    | notApplicable d => exact hi.bind ((narrates_tell _).bind (ih e))
    | failed d => exact hi.bind ((narrates_tell _).bind (narrates_pure _))
    | refined types =>
      simp only [List.append_assoc]
      exact hi.bind ((narrates_refineAllLive _ e).bind (ih _))

theorem narrates_examineLive (e : Engine σ κ) (id : ClueId) :
    Narrates (e.examineLive id) (e.examine id).1 (.dequeued id :: (e.examine id).2) := by
  apply (narrates_tell (.dequeued id)).bind
  rw [examine]
  cases e.at? id with
  | none => exact narrates_pure e
  | some c =>
    by_cases h : c.hasError
    · simp only [h, if_true]
      exact narrates_pure e
    · simp only [h, Bool.false_eq_true, if_false]
      cases c.dependencies.filter e.hasError with
      | nil => exact narrates_runRulesLive id (id :: c.dependencies) e.rules e
      | cons d ds => exact (narrates_tell _).bind (narrates_pure _)

theorem stepLive?_cases (e : Engine σ κ) :
    (e.step? = none ∧ e.stepLive? = none) ∨
      ∃ r step, e.step? = some r ∧ e.stepLive? = some step ∧ Narrates step r.1 r.2 := by
  rw [step?, stepLive?]
  cases e.pending.popLeast? with
  | none => exact .inl ⟨rfl, rfl⟩
  | some p => exact .inr ⟨_, _, rfl, rfl, narrates_examineLive _ _⟩

/-- Processing is told on the spot. Where it does not end within the limit, a part of the story has
been told. -/
def ToldLive (limit steps : Nat) (e : Engine σ κ) : Prop :=
  ∃ events, Narrates (settleLive limit steps e) ((settle limit steps e).map Prod.fst) events ∧
    ∀ r, settle limit steps e = some r → events = r.2

theorem toldLive_of_idle {e : Engine σ κ} (h : e.step? = none) (hl : e.stepLive? = none)
    (limit steps : Nat) : ToldLive limit steps e := by
  rw [ToldLive, settle_of_none h, settleLive, hl]
  refine ⟨_, (narrates_tell _).bind (narrates_pure _), ?_⟩
  rintro r ⟨⟩
  rfl

theorem toldLive (limit steps : Nat) (e : Engine σ κ) : ToldLive limit steps e := by
  induction limit generalizing steps e with
  | zero =>
    rcases stepLive?_cases e with ⟨hs, hl⟩ | ⟨r, step, hs, hl, hn⟩
    · exact toldLive_of_idle hs hl 0 steps
    · rw [ToldLive, settle, hs, settleLive, hl]
      exact ⟨[], narrates_pure none, fun r h => by cases h⟩
  | succ limit ih =>
    rcases stepLive?_cases e with ⟨hs, hl⟩ | ⟨r, step, hs, hl, hn⟩
    · exact toldLive_of_idle hs hl (limit + 1) steps
    · obtain ⟨events, hrest, htold⟩ := ih (steps + 1) r.1
      rw [ToldLive, settle_of_some hs, settleLive, hl, Option.map_map]
      refine ⟨r.2 ++ events, hn.bind hrest, ?_⟩
      intro r' hr'
      obtain ⟨rest, hsettle, rfl⟩ := Option.map_eq_some_iff.1 hr'
      rw [htold rest hsettle]

theorem narrates_addRuleLive (e : Engine σ κ) (r : Rule κ) :
    Narrates (e.addRuleLive r) (e.addRule r).1 (e.addRule r).2 :=
  (narrates_tell _).bind (narrates_pure _)

theorem narrates_addClueLive (e : Engine σ κ) (kind : String) (source : σ) (constant : κ)
    (dependencies : List ClueId) :
    Narrates (e.addClueLive kind source constant dependencies)
      ((e.addClue kind source constant dependencies).map fun r => (r.1, r.2.1))
      ((e.addClue kind source constant dependencies).toOption.elim [] fun r => r.2.2) := by
  rw [addClueLive, addClue]
  cases dependencies.find? fun d => (e.find? d).isNone with
  | some d => exact narrates_pure _
  | none => exact (narrates_tell _).bind (narrates_pure _)

/-- What a command does is told on the spot, and told in full unless processing does not settle. -/
theorem exists_narrates_performLive (limit : Nat) (e : Engine σ κ) (c : Command σ κ) :
    ∃ events, Narrates (e.performLive limit c) ((e.perform limit c).1, (e.perform limit c).2.1)
        events ∧
      ((e.perform limit c).1.isUnsettled = false → events = (e.perform limit c).2.2) := by
  cases c with
  | rule r => exact ⟨_, (narrates_addRuleLive e r).bind (narrates_pure _), fun _ => rfl⟩
  | clue kind source constant dependencies =>
    have hn := narrates_addClueLive e kind source constant dependencies
    rw [performLive, perform]
    generalize e.addClue kind source constant dependencies = added at hn
    cases added with
    | error u => exact ⟨_, hn.bind (narrates_pure _), fun _ => rfl⟩
    | ok r => exact ⟨_, hn.bind (narrates_pure _), fun _ => List.append_nil _⟩
  | process =>
    obtain ⟨events, hn, hs⟩ := toldLive limit 0 e
    rw [performLive, perform, process]
    generalize settle limit 0 e = settled at hn hs
    cases settled with
    | none => exact ⟨_, hn.bind (narrates_pure _), fun hr => by cases hr⟩
    | some r =>
      refine ⟨_, hn.bind (narrates_pure _), fun _ => ?_⟩
      rw [List.append_nil, hs r rfl]
  | query id =>
    rw [performLive, perform]
    cases e.query id with
    | error u => exact ⟨_, narrates_pure _, fun _ => rfl⟩
    | ok c => exact ⟨_, narrates_pure _, fun _ => rfl⟩

def Turn.upTo (level : Level) (t : Turn σ κ) : Turn σ κ :=
  { t with written := t.written.filter (·.level ≤ level) }

theorem exists_turnLive_eq (limit : Nat) (e : Engine σ κ) (c : Command σ κ) :
    ∃ events : List (Event σ κ),
      (∀ l, e.turnLive limit l c =
        ({ (e.turn limit l c).1 with
            seen := events.filterMap Event.observation?
            written := l.written (events.filterMap Event.record?) }, (e.turn limit l c).2)) ∧
      ((e.perform limit c).1.isUnsettled = false → events = (e.perform limit c).2.2) := by
  obtain ⟨events, hn, hs⟩ := exists_narrates_performLive limit e c
  refine ⟨events, fun l => ?_, hs⟩
  rw [turnLive, hn l, foldl_add]
  rfl

theorem turnLive_eq_turn {limit : Nat} {e : Engine σ κ} {c : Command σ κ}
    (h : (e.perform limit c).1.isUnsettled = false) (l : Logger) :
    e.turnLive limit l c = e.turn limit l c := by
  obtain ⟨events, hl, hs⟩ := exists_turnLive_eq limit e c
  rw [hl, hs h]
  rfl

section Thresholds
variable {low high : Level} (h : low ≤ high)
include h

theorem turn_upTo (limit : Nat) (e : Engine σ κ) (c : Command σ κ) :
    e.turn limit ⟨low⟩ c = ((e.turn limit ⟨high⟩ c).1.upTo low, (e.turn limit ⟨high⟩ c).2) := by
  rw [turn, turn, Turn.upTo, Logger.written_of_le h]

theorem turnLive_upTo (limit : Nat) (e : Engine σ κ) (c : Command σ κ) :
    e.turnLive limit ⟨low⟩ c =
      ((e.turnLive limit ⟨high⟩ c).1.upTo low, (e.turnLive limit ⟨high⟩ c).2) := by
  obtain ⟨events, hl, -⟩ := exists_turnLive_eq limit e c
  rw [hl, hl, Turn.upTo, Logger.written_of_le h]
  rfl

theorem session_upTo (limit : Nat) (e : Engine σ κ) (cs : List (Command σ κ)) :
    session limit ⟨low⟩ e cs = (session limit ⟨high⟩ e cs).map (Turn.upTo low) := by
  induction cs generalizing e with
  | nil => rfl
  | cons c cs ih => rw [session, session, turn_upTo h, List.map_cons, ih]

theorem sessionLive_upTo (limit : Nat) (e : Engine σ κ) (cs : List (Command σ κ)) :
    sessionLive limit ⟨low⟩ e cs = (sessionLive limit ⟨high⟩ e cs).map (Turn.upTo low) := by
  induction cs generalizing e with
  | nil => rfl
  | cons c cs ih => rw [sessionLive, sessionLive, turnLive_upTo h, List.map_cons, ih]

end Thresholds

theorem sessionLive_eq_session {limit : Nat} {l : Logger} {e : Engine σ κ}
    {cs : List (Command σ κ)} (h : ∀ t ∈ session limit l e cs, t.reply.isUnsettled = false) :
    sessionLive limit l e cs = session limit l e cs := by
  induction cs generalizing e with
  | nil => rfl
  | cons c cs ih =>
    rw [session, List.forall_mem_cons] at h
    rw [sessionLive, session, turnLive_eq_turn h.1, ih h.2]

/-- The threshold of the logger makes no difference to a session but for its records, and under a
lower threshold the records are those of the higher one up to the lower, in the same order. This
holds turn by turn, and also with a logger that decides at each event, which writes the same records
if all processing settles. -/
theorem sessions_differ_in_records {low high : Level} (h : low ≤ high) (limit : Nat)
    (e : Engine σ κ) (cs : List (Command σ κ)) :
    session limit ⟨low⟩ e cs = (session limit ⟨high⟩ e cs).map (Turn.upTo low) ∧
    sessionLive limit ⟨low⟩ e cs = (sessionLive limit ⟨high⟩ e cs).map (Turn.upTo low) ∧
    ∀ l, (∀ t ∈ session limit l e cs, t.reply.isUnsettled = false) →
      sessionLive limit l e cs = session limit l e cs :=
  ⟨session_upTo h limit e cs, sessionLive_upTo h limit e cs, fun _ => sessionLive_eq_session⟩

/-- Pins are faulty and everything else is an integer. A leaf depends on a pin, and the pin on a
hole. -/
def leafOnPin : List (Command String (Constant Unit)) :=
  [.rule stop,
    .rule ⟨"Int", .ofStatements [.look 0, .satisfied, .unifyType (.plain (.atom "Int")) 0]⟩,
    .clue "Hole" "a" nothing [], .clue "Pin" "b" nothing [hole],
    .clue "Leaf" "c" nothing [⟨"Pin", 1, 2⟩], .process, .query ⟨"Leaf", 1, 3⟩]

/-- One rule does not apply to the hole and the other one refines it, the pin fails, and the leaf
inherits the error. -/
theorem sessions_differ_in_records_leaf :
    Level.debug ≤ Level.trace ∧
      (session 4 ⟨.trace⟩ {} leafOnPin).map (fun t => t.written.length) = [1, 1, 1, 1, 1, 8, 0] ∧
      session 4 ⟨.debug⟩ {} leafOnPin = (session 4 ⟨.trace⟩ {} leafOnPin).map (Turn.upTo .debug) ∧
      (session 4 ⟨.debug⟩ {} leafOnPin).map (fun t => t.written.length) = [1, 1, 1, 1, 1, 4, 0] ∧
      sessionLive 4 ⟨.trace⟩ {} leafOnPin = session 4 ⟨.trace⟩ {} leafOnPin := by
  have hle : Level.debug ≤ Level.trace := by decide
  obtain ⟨hpure, -, hlive⟩ := sessions_differ_in_records hle 4 {} leafOnPin
  rw [hpure, List.map_map]
  have hrun : let turns := session 4 ⟨.trace⟩ {} leafOnPin
      turns.map (fun t => t.written.length) = [1, 1, 1, 1, 1, 8, 0] ∧
      turns.map ((fun t => t.written.length) ∘ Turn.upTo .debug) = [1, 1, 1, 1, 1, 4, 0] ∧
      ∀ t ∈ turns, t.reply.isUnsettled = false := by
    decide +kernel
  exact ⟨hle, hrun.1, rfl, hrun.2.1, hlive ⟨.trace⟩ hrun.2.2⟩

end Engine
end TypeClues
