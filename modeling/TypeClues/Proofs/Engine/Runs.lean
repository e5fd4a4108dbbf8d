import TypeClues.Proofs.Engine.History
import TypeClues.Proofs.Engine.Incremental
import TypeClues.Proofs.Engine.Visits

/-!
# Runs

An engine moves on by a new rule, a new clue or a step, and a run is any number of such moves. A
relation between what a clue is and what it becomes holds along every run if it is reflexive and
transitive, does not mind new dependents, and holds across every look at a clue.
-/
namespace TypeClues.Engine
variable {σ κ : Type} {e e' e'' : Engine σ κ}

theorem Visit.step {c : Clue σ κ} {rs : List (Rule κ)} (h : Visit e c rs e') :
    Step e (runRules c.id c.targets rs e').1 := by
  induction h with
  | @start rest hp hc hn hd =>
    refine ⟨.dequeued c.id :: (examine { e with pending := rest } c.id).2, ?_⟩
    have hx : examine { e with pending := rest } c.id = _ := examine_eq_runRules hc hn hd
    simp only [step?, hp, hx]
  | pass _ hv ih => rwa [runRules_of_notApplicable hv] at ih
  | store _ hv ih => rwa [runRules_of_refined hv] at ih

/-- Whatever looking at a clue can come to, a step does come to. -/
theorem Look.step {c : Clue σ κ} (h : Look e c e') : Step e e' := by
  cases h with
  | @skip rest hp hc hn =>
    have hx : examine { e with pending := rest } c.id = ({ e with pending := rest }, []) := by
      have hat : at? { e with pending := rest } c.id = some c := hc
      simp only [examine, hat, hn, if_true]
    refine ⟨[.dequeued c.id], ?_⟩
    rw [step?_of_popLeast? hp, hx]
  | @inherit rest hp hc hn hd =>
    obtain ⟨d, ds, hds⟩ := List.exists_cons_of_ne_nil hd
    have hx : (examine { e with pending := rest } c.id).1 = addErrors { e with pending := rest } c.id
        ((c.dependencies.filter e.hasError).map .inherited) := by
      have hat : at? { e with pending := rest } c.id = some c := hc
      have hf : c.dependencies.filter (hasError { e with pending := rest }) = d :: ds := hds
      simp only [examine, hat, hn, hf, hds]
      rfl
    refine ⟨.dequeued c.id :: (examine { e with pending := rest } c.id).2, ?_⟩
    rw [step?_of_popLeast? hp, hx]
  | finish h => exact h.step
  | fail h hv =>
    have hs := h.step
    rwa [runRules_of_failed hv] at hs

/-- One move of an engine. -/
inductive Advance : Engine σ κ → Engine σ κ → Prop where
  | rule (e : Engine σ κ) (r : Rule κ) : Advance e (e.addRule r).1
  | clue {e : Engine σ κ} {kind : String} {source : σ} {constant : κ} {dependencies : List ClueId}
      {r : ClueId × Engine σ κ × List (Event σ κ)}
      (ha : e.addClue kind source constant dependencies = .ok r) : Advance e r.2.1
  | step {e e' : Engine σ κ} (hs : Step e e') : Advance e e'

abbrev Leads : Engine σ κ → Engine σ κ → Prop := Relation.ReflTransGen Advance

theorem WellFormed.advance (he : e.WellFormed) (h : Advance e e') : e'.WellFormed := by
  cases h with
  | rule r => exact he.addRule r
  | clue ha => exact he.addClue ha
  | step hs =>
    obtain ⟨es, hs⟩ := hs
    exact he.evolves (evolves_step? hs)

theorem WellFormed.leads (he : e.WellFormed) (h : Leads e e') : e'.WellFormed := by
  induction h with
  | refl => exact he
  | tail _ ha ih => exact ih.advance ha

theorem leads_perform (limit : Nat) (e : Engine σ κ) (c : Command σ κ) :
    Leads e (e.perform limit c).2.1 := by
  cases c with
  | rule r => exact .single (.rule e r)
  | clue kind source constant ds =>
    rw [perform]
    cases ha : e.addClue kind source constant ds with
    | error u => exact .refl
    | ok r => exact .single (.clue ha)
  | process =>
    rw [perform]
    cases hr : e.process limit with
    | none => exact .refl
    | some r => exact (steps_of_settle hr).1.lift id fun _ _ hs => .step hs
  | query id =>
    rw [perform]
    cases e.query id <;> exact .refl

theorem leads_drive (limit : Nat) (p : Policy) (cs ds : List (Command σ κ)) :
    Leads (drive limit p cs).1 (drive limit p (cs ++ ds)).1 := by
  rw [drive, drive, List.foldl_append]
  generalize List.foldl _ _ cs = s
  exact List.foldlRecOn (motive := fun t : Engine σ κ × List (Event σ κ) => Leads s.1 t.1) ds _
    .refl fun t h c _ => h.trans (leads_perform limit t.1 c)

/-- Every clue is still there, and the relation holds between what it was and what it is. -/
def Carries (R : Clue σ κ → Clue σ κ → Prop) (e e' : Engine σ κ) : Prop :=
  ∀ id c, e.find? id = some c → ∃ c', e'.find? id = some c' ∧ R c c'

section
variable {R : Clue σ κ → Clue σ κ → Prop}

theorem Carries.trans (hR : ∀ a b c, R a b → R b c → R a c) (h : Carries R e e')
    (h' : Carries R e' e'') : Carries R e e'' := by
  intro id c hc
  obtain ⟨c', hc', hr⟩ := h id c hc
  obtain ⟨c'', hc'', hr'⟩ := h' id c' hc'
  exact ⟨c'', hc'', hR c c' c'' hr hr'⟩

theorem Evolves.carries (h : Evolves e e')
    (hR : ∀ j c c', e.at? j = some c → e'.at? j = some c' → R c c') : Carries R e e' := by
  intro id c hc
  obtain ⟨hc, hid⟩ := find?_eq_some_iff.1 hc
  have hf := h.at?_frame id
  rw [hc] at hf
  obtain ⟨c', hc', hf⟩ := Option.map_eq_some_iff.1 hf
  have hid' : c'.id = id := (Clue.id_of_frame hf).trans hid
  exact ⟨c', find?_eq_some_iff.2 ⟨hc', hid'⟩, hR id c c' hc hc'⟩

theorem WellFormed.carries_withClue (he : e.WellFormed) (hR : ∀ new c : Clue σ κ, R c (new.link c))
    (new : Clue σ κ) : Carries R e (e.withClue new) := by
  intro id c hc
  obtain ⟨hc, hid⟩ := find?_eq_some_iff.1 hc
  have hs : id.slot < e.clues.length := he.slot_lt ⟨c, List.mem_of_getElem? hc, hid⟩
  have hc' : (e.withClue new).at? id = some (new.link c) := by
    rw [at?_withClue hs, hc]
    rfl
  exact ⟨new.link c, find?_eq_some_iff.2 ⟨hc', by rw [Clue.id_link, hid]⟩, hR new c⟩

/-- What holds across every look at a clue holds along every run. -/
theorem WellFormed.carries_leads (hrefl : ∀ c, R c c) (htrans : ∀ a b c, R a b → R b c → R a c)
    (hlink : ∀ new c : Clue σ κ, R c (new.link c))
    (hlook : ∀ (e : Engine σ κ) c e', e.WellFormed → Look e c e' →
      ∀ j d d', e.at? j = some d → e'.at? j = some d' → R d d')
    (he : e.WellFormed) (h : Leads e e') : Carries R e e' := by
  induction h with
  | refl => exact fun id c hc => ⟨c, hc, hrefl c⟩
  | @tail a b hl ha ih =>
    have hw := he.leads hl
    refine ih.trans htrans ?_
    cases ha with
    | rule r => exact fun id c hc => ⟨c, hc, hrefl c⟩
    | clue ha =>
      obtain ⟨-, rfl⟩ := hw.addClue_ok ha
      exact hw.carries_withClue hlink _
    | step hs =>
      obtain ⟨es, hs⟩ := hs
      obtain ⟨c, hc⟩ := hw.look_of_step? hs
      exact (evolves_step? hs).carries (hlook a c b hw hc)

end

end TypeClues.Engine
