import TypeClues.Proofs.Rule.Calls
import TypeClues.Proofs.Rule.Resolution
import TypeClues.Proofs.Rule.View

/-!
# What a rule makes of the types of its targets

Every call keeps a workspace sound, so every script does. The type that a rule gives a target is
the stored type with something put in for its variables: its term is an instance of the stored term,
and a stored constraint is still there unless it no longer concerns the term.
-/
namespace TypeClues

/-- The second type says all that the first does about its term, and maybe more: its term is an
instance of the first one, and the constraints that concern it are kept. -/
def Qualified.Narrows (p q : Qualified) : Prop :=
  ∃ θ : Substitution, q.term = p.term.subst θ ∧
    ∀ c ∈ p.constraints, c.subst θ ∈ q.constraints ∨ ∀ v ∈ (c.subst θ).vars, v ∉ q.term.vars

theorem Qualified.Narrows.of_rename {p q : Qualified} {f : String → String}
    (h : (p.rename f).Narrows q) : p.Narrows q := by
  obtain ⟨θ, ht, hc⟩ := h
  refine ⟨fun v => θ (f v), ?_, fun c hm => ?_⟩
  · rw [ht]
    exact Term.subst_rename f θ p.term
  · have hmem : c.rename f ∈ (p.rename f).constraints :=
      mem_constraints_of.2 (List.mem_map_of_mem hm)
    rw [← Term.subst_rename]
    exact hc _ hmem

theorem Store.narrows_of_instantiate {s : Store} (hs : s.bindings.Acyclic) {q r : Qualified}
    (h : s.instantiate q = .ok r) : q.Narrows r := by
  obtain ⟨-, rfl⟩ := answer_eq_ok_iff.1 h
  refine ⟨s.bindings.solution, (Bindings.subst_solution hs q.term).symm, fun c hc => ?_⟩
  rw [Bindings.subst_solution hs, or_iff_not_imp_right]
  intro hv
  push Not at hv
  obtain ⟨v, hv, ht⟩ := hv
  apply Qualified.mem_constraints_of.2
  apply List.mem_filter.2
  refine ⟨List.mem_map_of_mem (List.mem_append_right _ hc), ?_⟩
  exact List.any_eq_true.2 ⟨v, hv, decide_eq_true ht⟩

namespace Workspace
variable {σ κ : Type} {w : Workspace σ κ}

theorem Sound.fail (hw : w.Sound) (c : Complaint) (blame : List Nat) : (w.fail c blame).Sound := by
  rw [Workspace.fail]
  cases w.failure with
  | some d => exact hw
  | none =>
    exact ⟨hw.scopes, hw.hygienic, hw.store, fun hn => absurd hn (Option.some_ne_none _)⟩

theorem Sound.unify (hw : w.Sound) (hf : w.failure = none) (a b : Qualified) (c : Complaint)
    (blame : List Nat) : (w.unify a b c blame).Sound := by
  have hreach : (w.store.unify w.policy a b).2.Reachable w.policy := .unify hw.store a b
  rw [Workspace.unify]
  cases hr : (w.store.unify w.policy a b).1 with
  | ok u => exact ⟨hw.scopes, hw.hygienic, hreach, fun _ => Store.failed_of_unify_ok hr⟩
  | error x =>
    simp only [Workspace.fail, hf]
    exact ⟨hw.scopes, hw.hygienic, hreach, fun hn => absurd hn (Option.some_ne_none _)⟩

theorem Sound.unifyType (hw : w.Sound) (q : Qualified) (i : Nat) : (w.unifyType q i).Sound := by
  rw [Workspace.unifyType]
  cases hf : w.failure with
  | some d => exact hw
  | none =>
    cases hc : w.targets[i]? with
    | none => exact hw.fail _ _
    | some c =>
      have hr := resolveType_resolves hw q
      have hi : i < (w.resolveType q).2.targets.length := by
        rw [hr.extend.targets]
        exact (List.getElem?_eq_some_iff.1 hc).1
      have hs := resolveTarget_resolves hr.sound hi c
      exact hs.sound.unify (by rw [hs.extend.failure, hr.extend.failure, hf]) _ _ _ _

theorem Sound.unifyClues (hw : w.Sound) (i j : Nat) : (w.unifyClues i j).Sound := by
  rw [Workspace.unifyClues]
  cases hf : w.failure with
  | some d => exact hw
  | none =>
    cases hc : w.targets[i]? with
    | none => exact hw.fail _ _
    | some c =>
      cases hd : w.targets[j]? with
      | none => exact hw.fail _ _
      | some d =>
        have hr := resolveTarget_resolves hw (List.getElem?_eq_some_iff.1 hc).1 c
        have hj : j < (w.resolveTarget i c).2.targets.length := by
          rw [hr.extend.targets]
          exact (List.getElem?_eq_some_iff.1 hd).1
        have hs := resolveTarget_resolves hr.sound hj d
        exact hs.sound.unify (by rw [hs.extend.failure, hr.extend.failure, hf]) _ _ _ _

theorem instantiateTarget_sound (hw : w.Sound) (i : Nat) : (w.instantiateTarget i).2.Sound := by
  rw [instantiateTarget]
  cases hc : w.targets[i]? with
  | none => exact hw
  | some c => exact (resolveTarget_resolves hw (List.getElem?_eq_some_iff.1 hc).1 c).sound

theorem Sound.instantiate (hw : w.Sound) (i : Nat) : (w.instantiate i).2.Sound := by
  rw [Workspace.instantiate]
  cases w.failure with
  | some d => exact hw
  | none => exact instantiateTarget_sound hw i

theorem Sound.serve (hw : w.Sound) (c : Call κ) : (w.serve c).Sound := by
  cases c with
  | arity => exact hw
  | kind i => exact hw
  | constant i => exact hw
  | instantiate i => exact hw.instantiate i
  | satisfied => exact ⟨hw.scopes, hw.hygienic, hw.store, hw.intact⟩
  | fail message blame => exact hw.fail _ _
  | unifyType q i => exact hw.unifyType q i
  | unifyClues i j => exact hw.unifyClues i j
  | note o => exact ⟨hw.scopes, hw.hygienic, hw.store, hw.intact⟩

theorem Sound.run (hw : w.Sound) (s : Script κ) : (run s w).Sound :=
  run_of_serve (fun _ c h => h.serve c) s hw

theorem targets_run_new (p : Policy) (s : Script κ) (ts : List (Clue σ κ)) :
    (run s (new p ts)).targets = ts :=
  targets_of_retarget (run_retarget (w := new p ts) s rfl)

theorem failure_of_refined {types : List Qualified} (h : w.verdict = .refined types) :
    w.failure = none := by
  cases hf : w.failure with
  | none => rfl
  | some d =>
    simp only [verdict, hf] at h
    split at h <;> cases h

/-- The types that a rule ends with are the store's answers about its targets. -/
theorem instantiate_of_refined {p : Policy} {s : Script κ} {ts : List (Clue σ κ)}
    {types : List Qualified} (h : (run s (new p ts)).verdict = .refined types) :
    types.length = ts.length ∧ ∀ (i : Nat) (c : Clue σ κ) (q : Qualified), ts[i]? = some c →
      types[i]? = some q → ∃ f, (run s (new p ts)).store.instantiate (c.type.rename f) = .ok q := by
  have hf := failure_of_refined h
  obtain ⟨types', w', hts, -, -, hlen, hall⟩ := ((new_sound p ts).run s).exists_types hf
  simp only [verdict, hf, hts] at h
  cases h
  rw [targets_run_new] at hlen hall
  exact ⟨hlen, fun i c q hc hq => ⟨_, (hall i c q hc hq).2⟩⟩

theorem exists_target_of_refined {p : Policy} {s : Script κ} {ts : List (Clue σ κ)}
    {types : List Qualified} (h : (run s (new p ts)).verdict = .refined types) {q : Qualified}
    (hq : q ∈ types) :
    ∃ c ∈ ts, ∃ f, (run s (new p ts)).store.instantiate (c.type.rename f) = .ok q := by
  obtain ⟨hlen, hall⟩ := instantiate_of_refined h
  obtain ⟨i, hi⟩ := List.mem_iff_getElem?.1 hq
  have hlt : i < ts.length := hlen ▸ (List.getElem?_eq_some_iff.1 hi).1
  exact ⟨_, List.getElem_mem hlt, hall i _ q (List.getElem?_eq_getElem hlt) hi⟩

/-- A rule that ends with types has one for every target, which narrows the stored type. -/
theorem narrows_of_refined {p : Policy} {s : Script κ} {ts : List (Clue σ κ)}
    {types : List Qualified} (h : (run s (new p ts)).verdict = .refined types) :
    types.length = ts.length ∧ ∀ (i : Nat) (c : Clue σ κ) (q : Qualified), ts[i]? = some c →
      types[i]? = some q → c.type.Narrows q := by
  have hw := (new_sound p ts).run s
  obtain ⟨hlen, hall⟩ := instantiate_of_refined h
  refine ⟨hlen, fun i c q hc hq => ?_⟩
  obtain ⟨f, hins⟩ := hall i c q hc hq
  exact (Store.narrows_of_instantiate hw.store.acyclic hins).of_rename

end Workspace
end TypeClues
