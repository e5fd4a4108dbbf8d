import TypeClues.Proofs.Meeting
import TypeClues.Proofs.Rule.Equations
import TypeClues.Proofs.Rule.Invocation
import TypeClues.Proofs.Store.Given

/-!
# Asserting a type

A rule that asserts a type of every clue takes a clue to the point where its type and the asserted
one meet. Without keys no constraint touches another, so that is all that happens; what the clue
depends on is among the targets, but has no part in it. When the rule is run again on its own
result, the two types meet again.
-/
namespace TypeClues

theorem Scope.CoversType.isSome_find? {s : Scope} {q : Qualified} (h : s.CoversType q) {v : String}
    (hv : v ∈ q.names) : (s.find? v).isSome := by
  rcases Qualified.mem_names.1 hv with hv | ⟨c, hc, hv⟩
  · exact h.term v hv
  · exact h c (List.mem_append_left _ hc) v hv

theorem Term.mostGeneral_solution {B : Bindings} (hB : B.Acyclic) {t u : Term}
    (h : ∀ θ, Bindings.Solves θ B ↔ t.subst θ = u.subst θ) : MostGeneral B.solution t u where
  unifies := (h _).1 (Bindings.solves_solution hB)
  general θ hθ v := ((h θ).2 hθ).subst_substitute (.var v)

/-- A store that knows nothing but two types answers with the point where they meet. -/
theorem Store.instantiate_eq_meet {s : Store} (hf : s.failed = false) {t q : Qualified}
    (h : s.Represents (t.constraints.toList ++ q.constraints.toList)) :
    s.instantiate q = .ok (.meet s.bindings.solution t q) := by
  have hsub : ∀ u, s.bindings.substitute u = u.subst s.bindings.solution := fun u =>
    (Bindings.subst_solution h.acyclic u).symm
  have hmem : ∀ c, (∃ d ∈ s.constraints ++ q.constraints.toList, s.bindings.substitute d = c) ↔
      ∃ d ∈ t.constraints.toList ++ q.constraints.toList, s.bindings.substitute d = c := by
    intro c
    constructor
    · rintro ⟨d, hd, rfl⟩
      rcases List.mem_append.1 hd with hd | hd
      · exact ⟨d, h.given_of_live d hd, rfl⟩
      · exact ⟨d, List.mem_append_right _ hd, rfl⟩
    · rintro ⟨d, hd, rfl⟩
      obtain ⟨d', hd', he⟩ := h.live_of_given d hd
      exact ⟨d', List.mem_append_left _ hd', he.symm⟩
  rw [instantiate, answer, if_neg (by simp [hf])]
  congr 1
  ext c
  · rw [qualified, Qualified.mem_constraints_of, List.mem_filter, List.mem_map, hmem,
      Qualified.mem_constraints_meet, List.any_eq_true]
    simp only [List.mem_append, OrderedSet.mem_def, decide_eq_true_eq, hsub]
  · exact hsub q.term

def Script.asserting {κ : Type} (T : Qualified) : Script κ := .satisfied (.unifyType T 0 .done)

namespace Workspace
variable {σ κ : Type} {p : Policy} {w : Workspace σ κ} {T : Qualified}

theorem Sound.renamedApart (hw : w.Sound) {k l : Option Nat} (hkl : k ≠ l) {t s : Qualified}
    (ht : (w.scopeAt k).CoversType t) (hs : (w.scopeAt l).CoversType s) :
    Qualified.RenamedApart (w.scopeAt k).resolved (w.scopeAt l).resolved t s := by
  have hinj : ∀ {k l : Option Nat} {t s : Qualified}, (w.scopeAt k).CoversType t →
      (w.scopeAt l).CoversType s → ∀ v ∈ t.names, ∀ u ∈ s.names,
      (w.scopeAt k).resolved v = (w.scopeAt l).resolved u → k = l ∧ v = u := by
    intro k l t s ht hs v hv u hu he
    obtain ⟨a, ha⟩ := Option.isSome_iff_exists.1 (ht.isSome_find? hv)
    obtain ⟨b, hb⟩ := Option.isSome_iff_exists.1 (hs.isSome_find? hu)
    rw [Scope.resolved_of_find? ha, Scope.resolved_of_find? hb] at he
    exact hw.hygienic.resolved_inj ha hb he
  exact ⟨fun v hv u hu he => (hinj ht ht v hv u hu he).2,
    fun v hv u hu he => (hinj hs hs v hv u hu he).2,
    fun v hv u hu he => hkl (hinj ht hs v hv u hu he).1⟩

theorem unify_of_failure_eq_none {a b : Qualified} {c : Complaint} {blame : List Nat}
    (h : (w.unify a b c blame).failure = none) :
    ∃ s, w.store.unify w.policy a b = (.ok (), s) ∧
      w.unify a b c blame = { w with store := s } := by
  rw [unify] at h ⊢
  cases hr : w.store.unify w.policy a b with
  | mk r s =>
    cases r with
    | ok u => exact ⟨s, rfl, rfl⟩
    | error x =>
      rw [hr] at h
      cases hf : w.failure <;> simp [fail, hf] at h

/-- A workspace that has unified the type of its first target with another one, and nothing else,
ends with the point where they meet. -/
theorem Tracks.verdict_eq_meet {c : Clue σ κ} {ts : List (Clue σ κ)}
    (h : Tracks p (c :: ts) w [⟨none, T.term, some 0, c.type.term⟩]) (hf : w.failure = none)
    (hT : (w.scopeAt none).CoversType T) (hc : (w.scopeAt (some 0)).CoversType c.type)
    (hr : w.store.Represents ((T.rename (w.scopeAt none).resolved).constraints.toList ++
      (c.type.rename (w.scopeAt (some 0)).resolved).constraints.toList)) :
    ∃ f g β xs, Qualified.RenamedApart f g T c.type ∧
      Term.MostGeneral β (T.term.rename f) (c.type.term.rename g) ∧
      w.verdict = .refined (.meet β (T.rename f) (c.type.rename g) :: xs) := by
  obtain ⟨types, w', hts, -, he, hlen, hall⟩ := h.sound.exists_types hf
  rw [h.targets] at hlen hall
  obtain ⟨x, xs, rfl⟩ := List.exists_cons_of_length_eq_add_one hlen
  refine ⟨(w.scopeAt none).resolved, (w.scopeAt (some 0)).resolved, w.store.bindings.solution, xs,
    h.sound.renamedApart (by simp) hT hc, ?_, ?_⟩
  · apply Term.mostGeneral_solution hr.acyclic
    intro θ
    rw [h.solved hf θ, List.forall_mem_singleton]
    rfl
  · obtain ⟨-, hx⟩ := hall 0 c x rfl rfl
    rw [hc.rename_eq (he.grows _), Store.instantiate_eq_meet (h.sound.intact hf) hr] at hx
    cases hx
    rw [verdict, hf, hts]

/-- Without keys the rule takes the clue to the point where the types meet, or there is none. -/
theorem verdict_asserting (hp : ∀ c, p.key? c = none) (T : Qualified) (c : Clue σ κ)
    (ts : List (Clue σ κ)) :
    (∃ f g β xs, Qualified.RenamedApart f g T c.type ∧
      Term.MostGeneral β (T.term.rename f) (c.type.term.rename g) ∧
      (run (.asserting T) (new p (c :: ts))).verdict =
        .refined (.meet β (T.rename f) (c.type.rename g) :: xs)) ∨
    (∀ types, (run (.asserting T) (new p (c :: ts))).verdict ≠ .refined types) ∧
      ∀ ρ θ, T.term.subst ρ ≠ c.type.term.subst θ := by
  have h₁ := (new_tracks p (c :: ts)).ask (a := .satisfied)
    (fun d _ => p.keyless_of_forall hp d.type) (by simp) trivial
  have ha := resolveType_resolves h₁.sound T
  have hb := resolveTarget_resolves ha.sound (i := 0) (Nat.zero_lt_succ ts.length) c
  have h₂ := h₁.unify rfl (p.keyless_of_forall hp T) (p.keyless_of_forall hp c.type) ha hb
    (.typeClash 0 T) [0]
  generalize hA : ((new p (c :: ts)).ask .satisfied).resolveType T = a at ha hb h₂
  generalize hB : a.2.resolveTarget 0 c = b at hb h₂
  have hrun : run (.asserting T) (new p (c :: ts)) = b.2.unify a.1 b.1 (.typeClash 0 T) [0] := by
    rw [← hB, ← hA]
    rfl
  rw [hrun]
  cases hf : (b.2.unify a.1 b.1 (.typeClash 0 T) [0]).failure with
  | none =>
    left
    obtain ⟨s, hs, hw⟩ := unify_of_failure_eq_none hf
    rw [hw] at h₂ hf ⊢
    have hstore : b.2.store = {} := hb.extend.store.trans ha.extend.store
    have hr : s.Represents (a.1.constraints.toList ++ b.1.constraints.toList) := by
      rw [hstore] at hs
      exact Store.Represents.empty.apply (x := .types a.1 b.1) hs
    rw [ha.type, ← ha.covers.rename_eq (hb.extend.grows none), hb.type] at hr
    exact h₂.verdict_eq_meet hf (ha.covers.extend (hb.extend.grows none)) hb.covers hr
  | some d =>
    right
    constructor
    · intro types hv
      rw [failure_of_refined hv] at hf
      cases hf
    · intro ρ θ he
      apply h₂.refuted (by simp [hf]) fun k => k.elim ρ fun _ => θ
      intro e hm
      rw [List.mem_singleton.1 hm]
      exact he

/-- The rule run again on its own result adds a constraint exactly if the type has one that has a
variable of its own and still concerns the term. Otherwise it ends with the same type up to names,
and with an equivalent one where the term has all variables. The other targets may have become
different ones in between. -/
theorem verdict_asserting_again (hp : ∀ c, p.key? c = none) {c d : Clue σ κ} {ts : List (Clue σ κ)}
    {x : Qualified} {xs : List Qualified}
    (h : (run (.asserting T) (new p (c :: ts))).verdict = .refined (x :: xs))
    (hd : x.Equivalent d.type) (ts' : List (Clue σ κ)) :
    ∃ y ys, (run (.asserting T) (new p (d :: ts'))).verdict = .refined (y :: ys) ∧
      (T.Renews x.term → d.type.constraints.size < y.constraints.size) ∧
      (¬ T.Renews x.term → d.type.Variant y) ∧ (x.Tied → d.type.Equivalent y) := by
  rcases verdict_asserting hp T c ts with ⟨f, g, β, xs', hfg, hβ, hv⟩ | ⟨hno, -⟩
  · obtain ⟨rfl, -⟩ : x = .meet β (T.rename f) (c.type.rename g) ∧ xs = xs' :=
      List.cons_eq_cons.1 (Verdict.refined.inj (h.symm.trans hv))
    obtain ⟨k, -, hk⟩ := hd.variant
    have hmet := (Qualified.met_meet hβ).rename k
    have hrenews := Qualified.renews_rename (Qualified.term_meet hβ) k
    rw [← Qualified.term_rename] at hrenews
    rw [← hk] at hmet hrenews
    rcases verdict_asserting hp T d ts' with ⟨f', g', β', ys, hfg', hβ', hv'⟩ | ⟨-, hno⟩
    · obtain ⟨hsame, hmore⟩ := hmet.meet_again hfg' hβ'
      refine ⟨_, ys, hv', fun hr => hmore (hrenews.2 hr), fun hr => hsame (mt hrenews.1 hr), ?_⟩
      intro ht
      have hr := Qualified.not_renews_of_tied hfg hβ ht
      exact (hsame (mt hrenews.1 hr)).equivalent (hd.variant.tied ht)
    · have he := hmet.term.symm
      rw [← Term.subst_id d.type.term] at he
      exact absurd he (hno _ _)
  · exact absurd h (hno _)

end Workspace
end TypeClues
