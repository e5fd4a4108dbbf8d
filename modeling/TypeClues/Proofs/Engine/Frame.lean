import TypeClues.Engine.Basic
import TypeClues.Proofs.OrderedSet

/-!
# What processing leaves alone

Looking at a clue changes types and errors and wakes dependents. The rest of every clue, the rules,
the policy and the supply of ids stay as they are.
-/
namespace TypeClues

/-- A clue without its type and errors. -/
def Clue.frame {σ κ : Type} (c : Clue σ κ) : Clue σ κ := { c with type := .mostGeneral, errors := [] }

namespace Clue
variable {σ κ : Type} {c d : Clue σ κ}

theorem id_of_frame (h : c.frame = d.frame) : c.id = d.id := congrArg (fun c => c.id) h

theorem dependencies_of_frame (h : c.frame = d.frame) : c.dependencies = d.dependencies :=
  congrArg (fun c => c.dependencies) h

theorem dependents_of_frame (h : c.frame = d.frame) : c.dependents = d.dependents :=
  congrArg (fun c => c.dependents) h

theorem exists_mem_of_frame {l l' : List (Clue σ κ)} (h : l'.map frame = l.map frame)
    (hc : c ∈ l') : ∃ d ∈ l, d.frame = c.frame := by
  have hf : c.frame ∈ l.map frame := h ▸ List.mem_map_of_mem hc
  exact List.mem_map.1 hf

end Clue

namespace Engine
variable {σ κ : Type} {e e' e'' : Engine σ κ}

/-- Only types and errors differ, and only dependents have been woken. -/
structure Evolves (e e' : Engine σ κ) : Prop where
  policy : e'.policy = e.policy
  rules : e'.rules = e.rules
  supply : e'.supply = e.supply
  frame : e'.clues.map Clue.frame = e.clues.map Clue.frame
  pending : ∀ id ∈ e'.pending, id ∈ e.pending ∨ ∃ c ∈ e.clues, id ∈ c.dependents

theorem Evolves.refl (e : Engine σ κ) : Evolves e e := ⟨rfl, rfl, rfl, rfl, fun _ => .inl⟩

theorem Evolves.trans (h : Evolves e e') (h' : Evolves e' e'') : Evolves e e'' := by
  refine ⟨h'.policy.trans h.policy, h'.rules.trans h.rules, h'.supply.trans h.supply,
    h'.frame.trans h.frame, fun id hid => ?_⟩
  rcases h'.pending id hid with hid | ⟨c, hc, hid⟩
  · exact h.pending id hid
  · obtain ⟨d, hd, hf⟩ := Clue.exists_mem_of_frame h.frame hc
    exact .inr ⟨d, hd, Clue.dependents_of_frame hf ▸ hid⟩

theorem Evolves.map_eq {α : Type} {g : Clue σ κ → α} (h : Evolves e e') (hg : ∀ c, g c.frame = g c) :
    e'.clues.map g = e.clues.map g := by
  have hf := congrArg (List.map g) h.frame
  simpa only [List.map_map, Function.comp_def, hg] using hf

theorem Evolves.length (h : Evolves e e') : e'.clues.length = e.clues.length := by
  simpa using congrArg List.length h.frame

theorem Evolves.at?_frame (h : Evolves e e') (id : ClueId) :
    (e'.at? id).map Clue.frame = (e.at? id).map Clue.frame := by
  rw [at?, at?, ← List.getElem?_map, ← List.getElem?_map, h.frame]

theorem map_modify {α : Type} {f : Clue σ κ → Clue σ κ} {g : Clue σ κ → α} {m : α → α}
    (h : ∀ c, g (f c) = m (g c)) (id : ClueId) :
    (e.modify id f).clues.map g = (e.clues.map g).modify id.slot m := by
  apply List.ext_getElem?
  intro k
  simp only [modify, List.getElem?_map, List.getElem?_modify]
  split <;> cases e.clues[k]? <;> simp [h]

theorem map_modify_eq {α : Type} {f : Clue σ κ → Clue σ κ} {g : Clue σ κ → α}
    (h : ∀ c, g (f c) = g c) (id : ClueId) : (e.modify id f).clues.map g = e.clues.map g := by
  rw [map_modify (m := fun a => a) h]
  exact List.modify_id _ _

theorem evolves_addErrors (id : ClueId) (ds : List (Diagnostic σ)) :
    Evolves e (e.addErrors id ds) := by
  refine ⟨rfl, rfl, rfl, ?_, fun _ => .inl⟩
  apply map_modify_eq
  intro c
  rfl

/-- A type is stored, and the dependents are woken, only if it says something new. -/
theorem refine_cases (e : Engine σ κ) (id : ClueId) (q : Qualified) :
    e.refine id q = (e, []) ∨ ∃ c, e.at? id = some c ∧ ¬ c.type.Equivalent q ∧
      e.refine id q = ({ e.modify id (fun c => { c with type := q.canonical }) with
        pending := e.pending.union c.dependents }, [.refined id c.type q.canonical]) := by
  rw [refine]
  cases e.at? id with
  | none => exact .inl rfl
  | some c =>
    by_cases hq : c.type.Equivalent q
    · exact .inl (if_pos hq)
    · exact .inr ⟨c, rfl, hq, if_neg hq⟩

theorem evolves_refine (id : ClueId) (q : Qualified) : Evolves e (e.refine id q).1 := by
  rcases e.refine_cases id q with hr | ⟨c, hc, -, hr⟩
  · rw [hr]
    exact .refl e
  · rw [hr]
    have hf : (e.modify id fun c => { c with type := q.canonical }).clues.map Clue.frame =
        e.clues.map Clue.frame := by
      apply map_modify_eq
      intro c
      rfl
    refine ⟨rfl, rfl, rfl, hf, fun x hx => ?_⟩
    rcases OrderedSet.mem_union.1 hx with hx | hx
    · exact .inl hx
    · exact .inr ⟨c, List.mem_of_getElem? hc, hx⟩

theorem evolves_refineAll (l : List (ClueId × Qualified)) : Evolves e (refineAll l e).1 := by
  induction l generalizing e with
  | nil => exact .refl e
  | cons p l ih => exact (evolves_refine p.1 p.2).trans ih

theorem evolves_runRules (id : ClueId) (ts : List ClueId) (rs : List (Rule κ)) :
    Evolves e (runRules id ts rs e).1 := by
  induction rs generalizing e with
  | nil => exact .refl e
  | cons r rs ih =>
    rw [runRules]
    cases (e.invoke r ts).1 with
    | notApplicable d => exact ih
    | failed d => exact evolves_addErrors id [d]
    | refined types => exact (evolves_refineAll _).trans ih

theorem evolves_examine (id : ClueId) : Evolves e (e.examine id).1 := by
  rw [examine]
  cases e.at? id with
  | none => exact .refl e
  | some c =>
    by_cases hc : c.hasError
    · simpa [hc] using Evolves.refl e
    · simp only [hc]
      cases c.dependencies.filter e.hasError with
      | nil => exact evolves_runRules id _ _
      | cons d ds => exact evolves_addErrors id _

/-- One step takes the least pending clue and looks at it. -/
theorem step?_eq_some {r : Engine σ κ × List (Event σ κ)} (h : e.step? = some r) :
    ∃ id rest, e.pending.popLeast? = some (id, rest) ∧
      r = ((examine { e with pending := rest } id).1,
        .dequeued id :: (examine { e with pending := rest } id).2) := by
  rw [step?] at h
  cases hp : e.pending.popLeast? with
  | none => simp [hp] at h
  | some p =>
    obtain ⟨id, rest⟩ := p
    rw [hp] at h
    exact ⟨id, rest, rfl, (Option.some.inj h).symm⟩

theorem step?_of_popLeast? {id : ClueId} {rest : OrderedSet ClueId}
    (h : e.pending.popLeast? = some (id, rest)) :
    e.step? = some ((examine { e with pending := rest } id).1,
      .dequeued id :: (examine { e with pending := rest } id).2) := by
  rw [step?, h]

theorem step?_eq_none_iff : e.step? = none ↔ e.pending = ∅ := by
  rw [← OrderedSet.popLeast?_eq_none_iff, step?]
  cases e.pending.popLeast? <;> simp

theorem evolves_pop {id : ClueId} {rest : OrderedSet ClueId}
    (h : e.pending.popLeast? = some (id, rest)) : Evolves e { e with pending := rest } :=
  ⟨rfl, rfl, rfl, rfl, fun _ hx => .inl ((OrderedSet.mem_of_popLeast? h).2 (.inr hx))⟩

theorem evolves_step? {r : Engine σ κ × List (Event σ κ)} (h : e.step? = some r) :
    Evolves e r.1 := by
  obtain ⟨id, rest, hp, rfl⟩ := step?_eq_some h
  exact (evolves_pop hp).trans (evolves_examine id)

theorem settle_of_none (h : e.step? = none) (limit n : Nat) :
    settle limit n e = some (e, [.settled n]) := by
  rw [settle, h]

theorem settle_of_some {s : Engine σ κ × List (Event σ κ)} (h : e.step? = some s) (limit n : Nat) :
    settle (limit + 1) n e = (settle limit (n + 1) s.1).map fun rest => (rest.1, s.2 ++ rest.2) := by
  rw [settle, h]

/-- Either there is nothing to do, or one step is made and the rest within one step less. -/
theorem settle_cases {limit n : Nat} {r : Engine σ κ × List (Event σ κ)}
    (h : settle limit n e = some r) :
    (e.step? = none ∧ r = (e, [.settled n])) ∨
      ∃ k s rest, limit = k + 1 ∧ e.step? = some s ∧ settle k (n + 1) s.1 = some rest ∧
        r = (rest.1, s.2 ++ rest.2) := by
  cases hs : e.step? with
  | none =>
    rw [settle_of_none hs] at h
    exact .inl ⟨rfl, (Option.some.inj h).symm⟩
  | some s =>
    cases limit with
    | zero => simp [settle, hs] at h
    | succ k =>
      rw [settle_of_some hs] at h
      obtain ⟨rest, hr, rfl⟩ := Option.map_eq_some_iff.1 h
      exact .inr ⟨k, s, rest, rfl, rfl, hr, rfl⟩

end Engine
end TypeClues
