import TypeClues.Proofs.Engine.Refinement
import TypeClues.Proofs.Variants

/-!
# Stored types are in normal form

What a store answers about a type has no constraint that is not about its term. The canonical form
of it is the same type under other names, so its constraints are about its term too, and taking the
canonical form again changes nothing. A clue starts with the most general type and learns nothing
but such forms, so every type of an engine is one of the two, whatever the rules are.
-/
namespace TypeClues

namespace Qualified
variable {q : Qualified}

/-- As types are stored: untouched or a canonical form, and with no constraint too many. -/
structure Normal (q : Qualified) : Prop where
  fixed : q = mostGeneral ∨ q.canonical = q
  salient : q.Salient

theorem normal_mostGeneral : mostGeneral.Normal := ⟨.inl rfl, salient_plain _⟩

theorem Salient.normal_canonical (h : q.Salient) : q.canonical.Normal :=
  ⟨.inr q.canonical_canonical, q.variant_canonical.salient h⟩

end Qualified

theorem Store.salient_qualified (cs : List Term) (t : Term) : (qualified cs t).Salient := by
  intro c hc
  obtain ⟨-, hv⟩ := List.mem_filter.1 (Qualified.mem_constraints_of.1 hc)
  obtain ⟨v, hv, ht⟩ := List.any_eq_true.1 hv
  exact ⟨v, hv, of_decide_eq_true ht⟩

theorem Store.salient_of_instantiate {s : Store} {q r : Qualified} (h : s.instantiate q = .ok r) :
    r.Salient := by
  obtain ⟨-, rfl⟩ := answer_eq_ok_iff.1 h
  exact salient_qualified _ _

/-- A rule ends with no constraint too many, whatever it does. -/
theorem Workspace.salient_of_refined {σ κ : Type} {p : Policy} {s : Script κ}
    {ts : List (Clue σ κ)} {types : List Qualified}
    (h : (run s (new p ts)).verdict = .refined types) : ∀ q ∈ types, q.Salient := by
  intro q hq
  obtain ⟨c, -, f, hins⟩ := exists_target_of_refined h hq
  exact Store.salient_of_instantiate hins

theorem Clue.normal_foldl_learn {σ κ : Type} {qs : List Qualified} {c : Clue σ κ}
    (hc : c.type.Normal) (hq : ∀ q ∈ qs, q.Salient) : (qs.foldl learn c).type.Normal := by
  induction qs generalizing c with
  | nil => exact hc
  | cons q qs ih =>
    apply ih
    · rw [learn]
      split
      · exact hc
      · exact (hq q List.mem_cons_self).normal_canonical
    · intro p hp
      exact hq p (List.mem_cons_of_mem q hp)

namespace Engine
variable {σ κ : Type} {e e' m : Engine σ κ} {c : Clue σ κ} {rs : List (Rule κ)}

def Normal (e : Engine σ κ) : Prop := ∀ j c, e.at? j = some c → c.type.Normal

theorem Normal.addErrors (h : e.Normal) (id : ClueId) (ds : List (Diagnostic σ)) :
    (e.addErrors id ds).Normal := by
  intro j c hc
  obtain ⟨b, hb, ht⟩ := exists_at?_of_addErrors hc
  exact ht ▸ h j b hb

theorem Normal.refineAll (h : e.Normal) {l : List (ClueId × Qualified)}
    (hl : ∀ x ∈ l, x.2.Salient) : (refineAll l e).1.Normal := by
  intro j c hc
  rw [at?_refineAll] at hc
  obtain ⟨b, hb, rfl⟩ := Option.map_eq_some_iff.1 hc
  apply Clue.normal_foldl_learn (h j b hb)
  intro q hq
  obtain ⟨x, hx, -, rfl⟩ := mem_candidatesAt.1 hq
  exact hl x hx

theorem Visit.normal (h : Visit e c rs m) (he : e.Normal) : m.Normal := by
  induction h with
  | start hp hc hn hd => exact he
  | pass _ _ ih => exact ih
  | store _ hv ih =>
    apply ih.refineAll
    intro x hx
    exact Workspace.salient_of_refined hv x.2 (List.of_mem_zip hx).2

theorem Look.normal (h : Look e c e') (he : e.Normal) : e'.Normal := by
  cases h with
  | skip hp hc hn => exact he
  | inherit hp hc hn hd => exact Normal.addErrors he _ _
  | finish h => exact h.normal he
  | fail h hv => exact (h.normal he).addErrors _ _

theorem WellFormed.normal_withClue (hw : e.WellFormed) (he : e.Normal) {new : Clue σ κ}
    (hnew : new.type = .mostGeneral) : (e.withClue new).Normal := by
  intro j c hc
  rcases List.mem_append.1 (List.mem_of_getElem? hc) with hc | hc
  · obtain ⟨b, hb, rfl⟩ := List.mem_map.1 hc
    rw [Clue.type_link]
    exact he b.id b (hw.at?_of_mem hb)
  · rw [List.mem_singleton.1 hc, hnew]
    exact Qualified.normal_mostGeneral

theorem History.normal {p : Policy} {es : List (Event σ κ)} (h : History p e es) : e.Normal := by
  induction h with
  | empty =>
    intro j c hc
    cases hc
  | rule _ r ih => exact ih
  | clue h ha ih =>
    obtain ⟨-, rfl⟩ := h.wellFormed.addClue_ok ha
    exact h.wellFormed.normal_withClue ih rfl
  | step h hs ih =>
    obtain ⟨c, hl⟩ := h.wellFormed.look_of_step? hs
    exact hl.normal ih
  | settled _ n ih => exact ih

/-- In every engine, also in the middle of a visit, each type is the most general one or its own
canonical form, its constraints are listed in strictly ascending order, and each of them shares a
variable with the term; so there are none where the term has no variables. -/
theorem types_in_normal_form {p : Policy} {es : List (Event σ κ)} (hh : History p e es)
    (hm : m = e ∨ ∃ c rs, Visit e c rs m) {c : Clue σ κ} (hc : c ∈ m.clues) :
    (c.type = .mostGeneral ∨ c.type.canonical = c.type) ∧
      c.type.constraints.toList.Pairwise (fun a b => compare a b = .lt) ∧
      (∀ d ∈ c.type.constraints, ∃ v ∈ d.vars, v ∈ c.type.term.vars) ∧
      (c.type.term.vars = [] → c.type.constraints = ∅) := by
  have hnormal : m.Normal := by
    rcases hm with rfl | ⟨b, rs, hv⟩
    · exact hh.normal
    · exact hv.normal hh.normal
  have hw : m.WellFormed := by
    rcases hm with rfl | ⟨b, rs, hv⟩
    · exact hh.wellFormed
    · exact hh.wellFormed.evolves hv.evolves
  have hn := hnormal c.id c (hw.at?_of_mem hc)
  exact ⟨hn.fixed, c.type.constraints.ascending, hn.salient, hn.salient.constraints_eq_empty⟩

def showList : Rule (Constant Unit) :=
  ⟨"ShowList", .ofStatements [.satisfied,
    .unifyType (.of [.app (.atom "Show") (.var "a")] (.app (.atom "List") (.var "a"))) 0]⟩

theorem types_in_normal_form_show_list :
    let e : Engine String (Constant Unit) :=
      (drive 2 {} [.rule showList, .clue "Hole" "a" nothing [], .process]).1
    ∃ es c, History {} e es ∧ c ∈ e.clues ∧
      c.type = .of [.app (.atom "Show") (.var "var_1")] (.app (.atom "List") (.var "var_1")) ∧
      (c.type = .mostGeneral ∨ c.type.canonical = c.type) ∧
      c.type.constraints.toList.Pairwise (fun a b => compare a b = .lt) ∧
      (∀ d ∈ c.type.constraints, ∃ v ∈ d.vars, v ∈ c.type.term.vars) ∧
      (c.type.term.vars = [] → c.type.constraints = ∅) := by
  intro e
  have hh := history_drive 2 {} ([.rule showList, .clue "Hole" "a" nothing [], .process] :
    List (Command String (Constant Unit)))
  have ht : e.clues.map Clue.type =
      [.of [.app (.atom "Show") (.var "var_1")] (.app (.atom "List") (.var "var_1"))] := by
    decide +kernel
  obtain ⟨c, hc, htype⟩ := List.mem_map.1 (ht ▸ List.mem_singleton_self _)
  exact ⟨_, c, hh, hc, htype, types_in_normal_form hh (.inl rfl) hc⟩

end Engine
end TypeClues
