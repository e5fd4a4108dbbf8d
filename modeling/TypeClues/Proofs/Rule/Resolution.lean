import TypeClues.Proofs.Naming.Hygiene
import TypeClues.Proofs.Store.Reachable
import TypeClues.Rule.Workspace

/-!
# Resolved types in a workspace

The scopes of a workspace are those of its targets and the one of the rule. They share a supply and
stay hygienic, and resolving a type changes nothing but scopes and supply. A workspace that has not
failed has a store that has not failed, so it can always say what the types of its targets are.
-/
namespace TypeClues.Workspace
variable {σ κ : Type}

/-- The scope of a target, and at `none` the scope of the rule. -/
def scopeAt (w : Workspace σ κ) : Option Nat → Scope
  | none => w.ruleScope
  | some i => w.scopes.getD i {}

/-- What holds between any two tools that a rule uses. -/
structure Sound (w : Workspace σ κ) : Prop where
  scopes : w.scopes.length = w.targets.length
  hygienic : Hygienic w.supply w.scopeAt
  store : w.store.Reachable w.policy
  intact : w.failure = none → w.store.failed = false

/-- Nothing but scopes and supply differs, and scopes only grow. -/
structure Extends (w w' : Workspace σ κ) : Prop where
  same : w' = { w with scopes := w'.scopes, supply := w'.supply, ruleScope := w'.ruleScope }
  grows : ∀ k, (w.scopeAt k).Extends (w'.scopeAt k)

/-- A type of the scope at `k` and the workspace in which it is resolved. -/
structure Resolves (w : Workspace σ κ) (k : Option Nat) (q : Qualified)
    (r : Qualified × Workspace σ κ) : Prop where
  sound : r.2.Sound
  extend : w.Extends r.2
  covers : (r.2.scopeAt k).CoversType q
  type : r.1 = q.rename (r.2.scopeAt k).resolved

section Extends
variable {w w' w'' : Workspace σ κ}

theorem Extends.refl (w : Workspace σ κ) : w.Extends w := ⟨rfl, fun _ => .refl _⟩

theorem Extends.trans (h : w.Extends w') (h' : w'.Extends w'') : w.Extends w'' := by
  refine ⟨?_, fun k => (h.grows k).trans (h'.grows k)⟩
  rw [h'.same, h.same]

theorem Extends.targets (h : w.Extends w') : w'.targets = w.targets := by rw [h.same]

theorem Extends.policy (h : w.Extends w') : w'.policy = w.policy := by rw [h.same]

theorem Extends.store (h : w.Extends w') : w'.store = w.store := by rw [h.same]

theorem Extends.failure (h : w.Extends w') : w'.failure = w.failure := by rw [h.same]

theorem Sound.extend (hw : w.Sound) (h : w.Extends w')
    (hs : w'.scopes.length = w.scopes.length) (hh : Hygienic w'.supply w'.scopeAt) : w'.Sound where
  scopes := by rw [hs, h.targets, hw.scopes]
  hygienic := hh
  store := by
    rw [h.store, h.policy]
    exact hw.store
  intact hf := by
    rw [h.store]
    exact hw.intact (h.failure ▸ hf)

end Extends

theorem new_sound (p : Policy) (targets : List (Clue σ κ)) : (new p targets).Sound where
  scopes := by simp [new]
  hygienic := by
    have hs : (new p targets).scopeAt = fun _ => ({} : Scope) := by
      funext k
      cases k with
      | none => rfl
      | some i =>
        simp only [scopeAt, new, List.getD_eq_getElem?_getD, List.getElem?_map]
        cases targets[i]? <;> rfl
    rw [hs]
    exact .of_empty _
  store := .empty
  intact _ := rfl

/-- Replacing one scope by what it resolves a type in. -/
private theorem resolves_of_update {w w' : Workspace σ κ} (hw : w.Sound) {k : Option Nat}
    {q : Qualified} {r : Qualified × Scope × Supply} (hr : r = (w.scopeAt k).resolve q w.supply)
    (same : w' = { w with scopes := w'.scopes, supply := r.2.2, ruleScope := w'.ruleScope })
    (hs : w'.scopes.length = w.scopes.length)
    (hk : w'.scopeAt = Function.update w.scopeAt k r.2.1) : w.Resolves k q (r.1, w') := by
  have hsupply : w'.supply = r.2.2 := by rw [same]
  have he : w.Extends w' := by
    refine ⟨by rw [hsupply]; exact same, fun l => ?_⟩
    rw [hk]
    by_cases hl : l = k
    · rw [hl, Function.update_self, hr]
      exact Scope.extends_reserve _ _ _
    · rw [Function.update_of_ne hl]
      exact .refl _
  have hself : w'.scopeAt k = r.2.1 := by rw [hk, Function.update_self]
  refine ⟨hw.extend he hs ?_, he, ?_, ?_⟩
  · rw [hk, hsupply, hr]
    exact hw.hygienic.reserve k q.vars
  · rw [hself, hr]
    exact Scope.coversType_resolve q _ _
  · rw [hself, hr]
    rfl

theorem resolveType_resolves {w : Workspace σ κ} (hw : w.Sound) (q : Qualified) :
    w.Resolves none q (w.resolveType q) := by
  refine resolves_of_update hw rfl rfl rfl ?_
  funext k
  cases k with
  | none => rw [Function.update_self]; rfl
  | some i => rw [Function.update_of_ne (by simp)]; rfl

theorem resolveTarget_resolves {w : Workspace σ κ} (hw : w.Sound) {i : Nat}
    (hi : i < w.targets.length) (c : Clue σ κ) :
    w.Resolves (some i) c.type (w.resolveTarget i c) := by
  refine resolves_of_update hw rfl rfl (by simp) ?_
  funext k
  cases k with
  | none => rw [Function.update_of_ne (by simp)]; rfl
  | some j =>
    by_cases hj : j = i
    · subst hj
      rw [Function.update_self]
      simp [scopeAt, List.getD_eq_getElem?_getD, hw.scopes, hi]
    · rw [Function.update_of_ne (by simpa using hj)]
      simp [scopeAt, List.getD_eq_getElem?_getD, List.getElem?_set_ne (Ne.symm hj)]

/-- Without a failure the types of all targets can be told: each is the stored type, resolved in its
scope, under what the store knows. -/
theorem instantiateEach_eq {w : Workspace σ κ} (hw : w.Sound) (hf : w.failure = none)
    (is : List Nat) (hi : ∀ i ∈ is, i < w.targets.length) :
    ∃ types w', w'.Sound ∧ w.Extends w' ∧ instantiateEach is w = .ok types ∧
      List.Forall₂ (fun i q => ∃ c, w.targets[i]? = some c ∧
        (w'.scopeAt (some i)).CoversType c.type ∧
        w.store.instantiate (c.type.rename (w'.scopeAt (some i)).resolved) = .ok q) is types := by
  induction is generalizing w with
  | nil => exact ⟨[], w, hw, .refl w, rfl, .nil⟩
  | cons i is ih =>
    have hlt : i < w.targets.length := hi i (by simp)
    obtain ⟨c, hc⟩ : ∃ c, w.targets[i]? = some c := ⟨_, List.getElem?_eq_getElem hlt⟩
    have hr := resolveTarget_resolves hw hlt c
    obtain ⟨types, w', hw', he, hts, hall⟩ := ih hr.sound (by rw [hr.extend.failure, hf])
      fun j hj => by
        rw [hr.extend.targets]
        exact hi j (by simp [hj])
    rw [hr.extend.targets, hr.extend.store] at hall
    obtain ⟨q, hq⟩ := Store.exists_instantiate (hw.intact hf) (w.resolveTarget i c).1
    refine ⟨q :: types, w', hw', hr.extend.trans he, ?_, .cons ⟨c, hc, ?_, ?_⟩ hall⟩
    · rw [instantiateEach]
      simp only [instantiateTarget, hc, hr.extend.store, hq, hts]
      rfl
    · exact hr.covers.extend (he.grows _)
    · rw [hr.covers.rename_eq (he.grows _), ← hr.type]
      exact hq

theorem Sound.exists_types {w : Workspace σ κ} (hw : w.Sound) (hf : w.failure = none) :
    ∃ types w', instantiateEach (List.range w.targets.length) w = .ok types ∧ w'.Sound ∧
      w.Extends w' ∧ types.length = w.targets.length ∧
      ∀ i (c : Clue σ κ) (q : Qualified), w.targets[i]? = some c → types[i]? = some q →
        (w'.scopeAt (some i)).CoversType c.type ∧
          w.store.instantiate (c.type.rename (w'.scopeAt (some i)).resolved) = .ok q := by
  obtain ⟨types, w', hw', he, hts, hall⟩ := instantiateEach_eq hw hf (List.range w.targets.length)
    fun i hi => List.mem_range.1 hi
  have hlen : types.length = w.targets.length := by rw [← hall.length_eq, List.length_range]
  refine ⟨types, w', hts, hw', he, hlen, fun i c q hc hq => ?_⟩
  obtain ⟨hi, rfl⟩ := List.getElem?_eq_some_iff.1 hq
  have hr : i < (List.range w.targets.length).length := by
    rw [hall.length_eq]
    exact hi
  obtain ⟨d, hd, hcov, hins⟩ := (List.forall₂_iff_get.1 hall).2 i hr hi
  simp only [List.get_eq_getElem, List.getElem_range] at hd hcov hins
  obtain rfl : c = d := Option.some.inj (hc.symm.trans hd)
  exact ⟨hcov, hins⟩

end TypeClues.Workspace
