import TypeClues.Proofs.Engine.Graph

/-!
# Visits

A step takes one clue and looks at it. A clue that is in error is passed over, and one with a
dependency in error inherits it. All others are visited: the rules run one after the other on the
clue and its dependencies, each on the types that those before it have left, up to the first that
fails. This is all that a step can do.
-/
namespace TypeClues

namespace Clue
variable {σ κ : Type}

def targets (c : Clue σ κ) : List ClueId := c.id :: c.dependencies

/-- The clue with a candidate for its type, which counts if it says something new. -/
def learn (c : Clue σ κ) (q : Qualified) : Clue σ κ :=
  if c.type.Equivalent q then c else { c with type := q.canonical }

theorem exists_foldl_learn_eq (c : Clue σ κ) (qs : List Qualified) :
    ∃ q, qs.foldl learn c = { c with type := q } := by
  induction qs generalizing c with
  | nil => exact ⟨c.type, rfl⟩
  | cons p qs ih =>
    obtain ⟨q, hq⟩ := ih (c.learn p)
    refine ⟨q, ?_⟩
    rw [List.foldl_cons, hq, learn]
    split <;> rfl

end Clue

def candidatesAt (l : List (ClueId × Qualified)) (j : ClueId) : List Qualified :=
  (l.filter fun x => x.1.slot = j.slot).map Prod.snd

theorem mem_candidatesAt {l : List (ClueId × Qualified)} {j : ClueId} {q : Qualified} :
    q ∈ candidatesAt l j ↔ ∃ x ∈ l, x.1.slot = j.slot ∧ x.2 = q := by
  simp [candidatesAt]

namespace Engine
variable {σ κ : Type} {e m : Engine σ κ} {c : Clue σ κ} {rs : List (Rule κ)}

theorem find?_eq_some_iff {id : ClueId} {c : Clue σ κ} :
    e.find? id = some c ↔ e.at? id = some c ∧ c.id = id := by
  simp [find?, Option.filter_eq_some_iff]

theorem at?_modify (id j : ClueId) (f : Clue σ κ → Clue σ κ) :
    (e.modify id f).at? j = if id.slot = j.slot then (e.at? j).map f else e.at? j := by
  rw [at?, modify, List.getElem?_modify]
  split <;> simp [at?]

theorem at?_addErrors (id j : ClueId) (ds : List (Diagnostic σ)) :
    (e.addErrors id ds).at? j = if id.slot = j.slot
      then (e.at? j).map (fun c => { c with errors := c.errors ++ ds }) else e.at? j :=
  at?_modify id j _

theorem at?_refine (id j : ClueId) (q : Qualified) :
    (e.refine id q).1.at? j = if id.slot = j.slot then (e.at? j).map (·.learn q) else e.at? j := by
  by_cases hs : id.slot = j.slot
  · have hj : e.at? j = e.at? id := by rw [at?, at?, hs]
    rw [if_pos hs, hj, refine]
    cases hc : e.at? id with
    | none => rw [hj, hc]; rfl
    | some c =>
      by_cases hq : c.type.Equivalent q
      · simp [hq, hj, hc, Clue.learn]
      · have hm := e.at?_modify id j fun c => { c with type := q.canonical }
        simp only [hq, if_false, Option.map_some, Clue.learn]
        rw [if_pos hs, hj, hc] at hm
        exact hm
  · rw [if_neg hs]
    rcases e.refine_cases id q with hr | ⟨c, -, -, hr⟩
    · rw [hr]
    · rw [hr]
      exact (e.at?_modify id j _).trans (if_neg hs)

/-- Each clue learns its own candidates, in order. -/
theorem at?_refineAll (l : List (ClueId × Qualified)) (j : ClueId) :
    (refineAll l e).1.at? j = (e.at? j).map fun c => (candidatesAt l j).foldl Clue.learn c := by
  induction l generalizing e with
  | nil => simp [refineAll, candidatesAt]
  | cons x l ih =>
    have hr : (refineAll (x :: l) e).1 = (refineAll l (e.refine x.1 x.2).1).1 := rfl
    rw [hr, ih, at?_refine]
    by_cases hs : x.1.slot = j.slot
    · simp [candidatesAt, hs, Function.comp_def]
    · simp [candidatesAt, hs]

theorem hasError_refineAll (l : List (ClueId × Qualified)) (j : ClueId) :
    (refineAll l e).1.hasError j = e.hasError j := by
  rw [hasError, hasError, at?_refineAll, Option.any_map]
  congr 1
  funext c
  obtain ⟨q, hq⟩ := c.exists_foldl_learn_eq (candidatesAt l j)
  rw [hq]
  rfl

/-- In the middle of the visit to a clue: the rules that are still to run, and the engine that they
will find. -/
inductive Visit (e : Engine σ κ) (c : Clue σ κ) : List (Rule κ) → Engine σ κ → Prop where
  | start {rest : OrderedSet ClueId} (hp : e.pending.popLeast? = some (c.id, rest))
      (hc : e.at? c.id = some c) (hn : ¬ c.hasError) (hd : ∀ d ∈ c.dependencies, ¬ e.hasError d) :
      Visit e c e.rules { e with pending := rest }
  | pass {m : Engine σ κ} {r : Rule κ} {rs : List (Rule κ)} {d : Diagnostic σ}
      (h : Visit e c (r :: rs) m) (hv : (m.invoke r c.targets).1 = .notApplicable d) :
      Visit e c rs m
  | store {m : Engine σ κ} {r : Rule κ} {rs : List (Rule κ)} {types : List Qualified}
      (h : Visit e c (r :: rs) m) (hv : (m.invoke r c.targets).1 = .refined types) :
      Visit e c rs (refineAll (c.targets.zip types) m).1

/-- The least pending clue is visited if neither it nor a dependency is in error. -/
theorem exists_visit (id : ClueId) (ds : List ClueId)
    (hp : e.pending.popLeast?.map Prod.fst = some id)
    (hc : (e.find? id).map Clue.dependencies = some ds) (hn : ∀ d ∈ id :: ds, ¬ e.hasError d) :
    ∃ c rest, c.targets = id :: ds ∧ Visit e c e.rules { e with pending := rest } := by
  obtain ⟨c, hfind, rfl⟩ := Option.map_eq_some_iff.1 hc
  obtain ⟨hat, rfl⟩ := find?_eq_some_iff.1 hfind
  obtain ⟨⟨i, rest⟩, hpop, hi⟩ := Option.map_eq_some_iff.1 hp
  cases hi
  have herr : ¬ c.hasError := by
    have hself := hn c.id List.mem_cons_self
    rwa [hasError, hat] at hself
  exact ⟨c, rest, rfl, .start hpop hat herr fun d hd => hn d (List.mem_cons_of_mem _ hd)⟩

theorem Visit.evolves (h : Visit e c rs m) : Evolves e m := by
  induction h with
  | start hp hc hn hd => exact evolves_pop hp
  | pass _ _ ih => exact ih
  | store _ _ ih => exact ih.trans (evolves_refineAll _)

theorem Visit.at?_self (h : Visit e c rs m) : e.at? c.id = some c := by
  induction h with
  | start hp hc hn hd => exact hc
  | pass _ _ ih => exact ih
  | store _ _ ih => exact ih

theorem Visit.issued (he : e.WellFormed) (h : Visit e c rs m) {t : ClueId} (ht : t ∈ c.targets) :
    e.Issued t := by
  have hc : c ∈ e.clues := List.mem_of_getElem? h.at?_self
  rcases List.mem_cons.1 ht with rfl | ht
  · exact ⟨c, hc, rfl⟩
  · exact (he.dependencies c hc t ht).1

theorem Visit.hasError (h : Visit e c rs m) (j : ClueId) : m.hasError j = e.hasError j := by
  induction h with
  | start hp hc hn hd => rfl
  | pass _ _ ih => exact ih
  | store _ _ ih => rw [hasError_refineAll, ih]

/-- No rule is ever run on a clue in error. -/
theorem Visit.not_hasError (h : Visit e c rs m) {j : ClueId} (hj : j ∈ c.targets) :
    ¬ m.hasError j := by
  rw [h.hasError]
  induction h with
  | start hp hc hn hd =>
    rcases List.mem_cons.1 hj with rfl | hj
    · rw [Engine.hasError, hc]
      exact hn
    · exact hd j hj
  | pass _ _ ih => exact ih
  | store _ _ ih => exact ih

theorem runRules_of_notApplicable {id : ClueId} {ts : List ClueId} {r : Rule κ} {d : Diagnostic σ}
    (h : (m.invoke r ts).1 = .notApplicable d) :
    (runRules id ts (r :: rs) m).1 = (runRules id ts rs m).1 := by
  simp only [runRules, h]

theorem runRules_of_failed {id : ClueId} {ts : List ClueId} {r : Rule κ} {d : Diagnostic σ}
    (h : (m.invoke r ts).1 = .failed d) : (runRules id ts (r :: rs) m).1 = m.addErrors id [d] := by
  simp only [runRules, h]

theorem runRules_of_refined {id : ClueId} {ts : List ClueId} {r : Rule κ} {types : List Qualified}
    (h : (m.invoke r ts).1 = .refined types) :
    (runRules id ts (r :: rs) m).1 = (runRules id ts rs (refineAll (ts.zip types) m).1).1 := by
  simp only [runRules, h]

/-- How looking at a clue can end. -/
inductive Look (e : Engine σ κ) (c : Clue σ κ) : Engine σ κ → Prop where
  | skip {rest : OrderedSet ClueId} (hp : e.pending.popLeast? = some (c.id, rest))
      (hc : e.at? c.id = some c) (hn : c.hasError) : Look e c { e with pending := rest }
  | inherit {rest : OrderedSet ClueId} (hp : e.pending.popLeast? = some (c.id, rest))
      (hc : e.at? c.id = some c) (hn : ¬ c.hasError) (hd : c.dependencies.filter e.hasError ≠ []) :
      Look e c (addErrors { e with pending := rest } c.id
        ((c.dependencies.filter e.hasError).map .inherited))
  | finish {m : Engine σ κ} (h : Visit e c [] m) : Look e c m
  | fail {m : Engine σ κ} {r : Rule κ} {rs : List (Rule κ)} {d : Diagnostic σ}
      (h : Visit e c (r :: rs) m) (hv : (m.invoke r c.targets).1 = .failed d) :
      Look e c (m.addErrors c.id [d])

theorem Visit.look (h : Visit e c rs m) : Look e c (runRules c.id c.targets rs m).1 := by
  induction rs generalizing m with
  | nil => exact .finish h
  | cons r rs ih =>
    cases hv : (m.invoke r c.targets).1 with
    | notApplicable d =>
      rw [runRules_of_notApplicable hv]
      exact ih (h.pass hv)
    | failed d =>
      rw [runRules_of_failed hv]
      exact .fail h hv
    | refined types =>
      rw [runRules_of_refined hv]
      exact ih (h.store hv)

theorem examine_eq_runRules (hc : e.at? c.id = some c) (hn : ¬ c.hasError)
    (hd : ∀ d ∈ c.dependencies, ¬ e.hasError d) :
    e.examine c.id = runRules c.id c.targets e.rules e := by
  rw [examine, hc]
  simp only [hn, List.filter_eq_nil_iff.2 hd]
  rfl

theorem WellFormed.look_of_step? (he : e.WellFormed) {r : Engine σ κ × List (Event σ κ)}
    (hs : e.step? = some r) : ∃ c, Look e c r.1 := by
  obtain ⟨id, rest, hp, rfl⟩ := step?_eq_some hs
  obtain ⟨c, hc, rfl⟩ := he.pending id ((OrderedSet.mem_of_popLeast? hp).2 (.inl rfl))
  refine ⟨c, ?_⟩
  have hat : at? { e with pending := rest } c.id = some c := he.at?_of_mem hc
  by_cases hn : c.hasError
  · have hx : examine { e with pending := rest } c.id = ({ e with pending := rest }, []) := by
      simp only [examine, hat, hn, if_true]
    rw [hx]
    exact .skip hp hat hn
  · cases hd : c.dependencies.filter e.hasError with
    | nil =>
      have hfine := List.filter_eq_nil_iff.1 hd
      rw [examine_eq_runRules hat hn hfine]
      exact (Visit.start hp hat hn hfine).look
    | cons d ds =>
      have hf : c.dependencies.filter (hasError { e with pending := rest }) = d :: ds := hd
      have hl := Look.inherit hp hat hn (by simp [hd])
      simp only [examine, hat, hn, hf]
      rw [hd] at hl
      exact hl

end Engine
end TypeClues
