import TypeClues.Proofs.Rule.Resolution
import TypeClues.Proofs.Store.Constraints

/-!
# A rule solves the equations it writes

A rule that asks for equal types poses equations. The type of each target has variables of its own,
also where two targets are one clue or use equal placeholder names, and all types that the rule
writes share one more set of variables. Under a policy without keys the rule refines its targets
exactly when these equations have a solution, and then to their most general one.
-/
namespace TypeClues

/-- What a rule asks for without looking at anything. -/
inductive Ask where
  | satisfied
  /-- The clue at an index has a type of this form. -/
  | unifyType (type : Qualified) (index : Nat)
  /-- Two clues have the same type. -/
  | unifyClues (left right : Nat)

namespace Ask
variable {σ κ : Type}

def InRange (count : Nat) : Ask → Prop
  | .satisfied => True
  | .unifyType _ i => i < count
  | .unifyClues i j => i < count ∧ j < count

/-- What is asked for is true under a substitution for each target and one for the rule. -/
def Holds (targets : List (Clue σ κ)) (θ : Nat → Substitution) (ρ : Substitution) : Ask → Prop
  | .satisfied => True
  | .unifyType q i => ∀ c, targets[i]? = some c → q.term.subst ρ = c.type.term.subst (θ i)
  | .unifyClues i j => ∀ c d, targets[i]? = some c → targets[j]? = some d →
    c.type.term.subst (θ i) = d.type.term.subst (θ j)

end Ask

def Script.ofAsks {κ : Type} : List Ask → Script κ
  | [] => .done
  | .satisfied :: asks => .satisfied (ofAsks asks)
  | .unifyType q i :: asks => .unifyType q i (ofAsks asks)
  | .unifyClues i j :: asks => .unifyClues i j (ofAsks asks)

/-- Two terms that have to become equal, each with the scope that it belongs to. -/
structure Equation where
  left : Option Nat
  leftTerm : Term
  right : Option Nat
  rightTerm : Term

namespace Equation
variable {σ κ : Type}

def Holds (φ : Option Nat → Substitution) (e : Equation) : Prop :=
  e.leftTerm.subst (φ e.left) = e.rightTerm.subst (φ e.right)

/-- True under one substitution of the names that the workspace resolves to. -/
def HoldsIn (w : Workspace σ κ) (θ : Substitution) (e : Equation) : Prop :=
  (e.leftTerm.rename (w.scopeAt e.left).resolved).subst θ =
    (e.rightTerm.rename (w.scopeAt e.right).resolved).subst θ

def Covered (w : Workspace σ κ) (e : Equation) : Prop :=
  (w.scopeAt e.left).Covers e.leftTerm ∧ (w.scopeAt e.right).Covers e.rightTerm

variable {w w' : Workspace σ κ} {e : Equation}

theorem Covered.extend (h : e.Covered w) (hw : w.Extends w') : e.Covered w' :=
  ⟨h.1.extend (hw.grows _), h.2.extend (hw.grows _)⟩

theorem Covered.holdsIn_iff (h : e.Covered w) (hw : w.Extends w') (θ : Substitution) :
    e.HoldsIn w' θ ↔ e.HoldsIn w θ := by
  rw [HoldsIn, HoldsIn, h.1.rename_eq (hw.grows _), h.2.rename_eq (hw.grows _)]

theorem holdsIn_iff_holds (θ : Substitution) :
    e.HoldsIn w θ ↔ e.Holds fun k v => θ ((w.scopeAt k).resolved v) := by
  rw [HoldsIn, Holds, Term.subst_rename, Term.subst_rename]

end Equation

def Ask.equation? {σ κ : Type} (targets : List (Clue σ κ)) : Ask → Option Equation
  | .satisfied => none
  | .unifyType q i => targets[i]?.map fun c => ⟨none, q.term, some i, c.type.term⟩
  | .unifyClues i j =>
    match targets[i]?, targets[j]? with
    | some c, some d => some ⟨some i, c.type.term, some j, d.type.term⟩
    | _, _ => none

theorem Ask.holds_iff {σ κ : Type} {targets : List (Clue σ κ)} {a : Ask}
    (φ : Option Nat → Substitution) :
    a.Holds targets (fun i => φ (some i)) (φ none) ↔
      ∀ e, a.equation? targets = some e → e.Holds φ := by
  cases a with
  | satisfied => simp [Holds, equation?]
  | unifyType q i =>
    cases hc : targets[i]? with
    | none => simp [Holds, equation?, hc]
    | some c => simp [Holds, equation?, hc, Equation.Holds]
  | unifyClues i j =>
    cases hc : targets[i]? with
    | none => simp [Holds, equation?, hc]
    | some c =>
      cases hd : targets[j]? with
      | none => simp [Holds, equation?, hd]
      | some d => simp [Holds, equation?, hc, hd, Equation.Holds]

/-- No constraint of the type has a key, whatever its variables are called. -/
def Policy.Keyless (p : Policy) (q : Qualified) : Prop :=
  ∀ f, ∀ c ∈ (q.rename f).constraints.toList, p.key? c = none

theorem Policy.keyless_of_forall {p : Policy} (hp : ∀ c, p.key? c = none) (q : Qualified) :
    p.Keyless q := fun _ c _ => hp c

namespace Workspace
variable {σ κ : Type} {p : Policy} {ts : List (Clue σ κ)} {w : Workspace σ κ} {es : List Equation}

def ask (w : Workspace σ κ) : Ask → Workspace σ κ
  | .satisfied => { w with satisfied := true }
  | .unifyType q i => w.unifyType q i
  | .unifyClues i j => w.unifyClues i j

theorem run_ofAsks (asks : List Ask) (w : Workspace σ κ) :
    run (.ofAsks asks) w = asks.foldl ask w := by
  induction asks generalizing w with
  | nil => rfl
  | cons a asks ih => cases a <;> exact ih _

/-- The workspace knows the equations: as long as nothing has failed its solutions are those of the
equations, and a failure means that these have none. -/
structure Tracks (p : Policy) (ts : List (Clue σ κ)) (w : Workspace σ κ) (es : List Equation) :
    Prop where
  sound : w.Sound
  policy : w.policy = p
  targets : w.targets = ts
  covered : w.failure = none → ∀ e ∈ es, e.Covered w
  solved : w.failure = none →
    ∀ θ, Bindings.Solves θ w.store.bindings ↔ ∀ e ∈ es, e.HoldsIn w θ
  refuted : w.failure ≠ none → ∀ φ, ¬ ∀ e ∈ es, e.Holds φ

theorem new_tracks (p : Policy) (ts : List (Clue σ κ)) : Tracks p ts (new p ts) [] where
  sound := new_sound p ts
  policy := rfl
  targets := rfl
  covered _ := by simp
  solved _ θ := iff_of_true (Bindings.solves_nil θ) (by simp)
  refuted h := absurd rfl h

theorem Sound.not_holds (hw : w.Sound) (hc : ∀ e ∈ es, e.Covered w)
    (h : ∀ θ, ¬ ∀ e ∈ es, e.HoldsIn w θ) (φ : Option Nat → Substitution) :
    ¬ ∀ e ∈ es, e.Holds φ := by
  intro hφ
  obtain ⟨θ, hθ⟩ := hw.hygienic.exists_joint φ
  apply h θ
  intro e he
  rw [Equation.HoldsIn, hθ _ _ (hc e he).1, hθ _ _ (hc e he).2]
  exact hφ e he

section Pose
variable {k l : Option Nat} {s t : Qualified} {a b : Qualified × Workspace σ κ}

theorem Tracks.covered_of_resolves (h : Tracks p ts w es) (hf : w.failure = none)
    (ha : w.Resolves k s a) (hb : a.2.Resolves l t b) :
    ∀ e ∈ es ++ [⟨k, s.term, l, t.term⟩], e.Covered b.2 := by
  intro e he
  rcases List.mem_append.1 he with he | he
  · exact (h.covered hf e he).extend (ha.extend.trans hb.extend)
  · rw [List.mem_singleton.1 he]
    exact ⟨(ha.covers.extend (hb.extend.grows k)).term, hb.covers.term⟩

theorem Tracks.solves_and_eq_iff (h : Tracks p ts w es) (hf : w.failure = none)
    (ha : w.Resolves k s a) (hb : a.2.Resolves l t b) (θ : Substitution) :
    Bindings.Solves θ b.2.store.bindings ∧ a.1.term.subst θ = b.1.term.subst θ ↔
      ∀ e ∈ es ++ [⟨k, s.term, l, t.term⟩], e.HoldsIn b.2 θ := by
  have he : w.Extends b.2 := ha.extend.trans hb.extend
  have hnew : a.1.term.subst θ = b.1.term.subst θ ↔
      Equation.HoldsIn b.2 θ ⟨k, s.term, l, t.term⟩ := by
    rw [ha.type, hb.type, ← ha.covers.rename_eq (hb.extend.grows k)]
    rfl
  have hold : (∀ e ∈ es, e.HoldsIn w θ) ↔ ∀ e ∈ es, e.HoldsIn b.2 θ :=
    forall₂_congr fun e hm => ((h.covered hf e hm).holdsIn_iff he θ).symm
  rw [he.store, h.solved hf θ, hnew, hold, List.forall_mem_append, List.forall_mem_singleton]

theorem Tracks.unify (h : Tracks p ts w es) (hf : w.failure = none) (hs : p.Keyless s)
    (ht : p.Keyless t) (ha : w.Resolves k s a) (hb : a.2.Resolves l t b) (c : Complaint)
    (blame : List Nat) :
    Tracks p ts (b.2.unify a.1 b.1 c blame) (es ++ [⟨k, s.term, l, t.term⟩]) := by
  have he : w.Extends b.2 := ha.extend.trans hb.extend
  have hfb : b.2.failure = none := he.failure.trans hf
  have hok : b.2.store.failed = false := hb.sound.intact hfb
  have hpol : b.2.policy = p := he.policy.trans h.policy
  have hcov := h.covered_of_resolves hf ha hb
  have hsol := h.solves_and_eq_iff hf ha hb
  have hreach : (b.2.store.unify b.2.policy a.1 b.1).2.Reachable b.2.policy :=
    .unify hb.sound.store _ _
  have hc := Bindings.unify_correct hb.sound.store.acyclic a.1.term b.1.term
  obtain ⟨live, hu⟩ := Store.unify_of_keyless (p := b.2.policy) (a := a.1) (b := b.1)
    (fun c hc => hpol ▸ hs _ c (ha.type ▸ hc)) (fun c hc => hpol ▸ ht _ c (hb.type ▸ hc)) hok
  rw [Store.unifyTerms, Store.guarded, if_neg (by simpa [Store.failed] using hok)] at hu
  rw [Workspace.unify]
  cases hB : b.2.store.bindings.unify a.1.term b.1.term with
  | ok B =>
    rw [hB] at hc hu
    rw [hu] at hreach ⊢
    exact ⟨⟨hb.sound.scopes, hb.sound.hygienic, hreach, fun _ => hok⟩, hpol,
      he.targets.trans h.targets, fun _ => hcov, fun _ θ => (hc.2 θ).trans (hsol θ),
      fun hn => absurd hfb hn⟩
  | error x =>
    rw [hB] at hc hu
    rw [hu] at hreach ⊢
    simp only [Store.Outcome.within, fail, hfb]
    refine ⟨⟨hb.sound.scopes, hb.sound.hygienic, hreach, fun hn => absurd hn (Option.some_ne_none _)⟩,
      hpol, he.targets.trans h.targets, fun hn => absurd hn (Option.some_ne_none _),
      fun hn => absurd hn (Option.some_ne_none _),
      fun _ => hb.sound.not_holds hcov fun θ hθ => ?_⟩
    obtain ⟨hs, ht⟩ := (hsol θ).2 hθ
    exact hc.2 θ hs ht

end Pose

theorem Tracks.append_of_failure (h : Tracks p ts w es) (hf : w.failure ≠ none)
    (es' : List Equation) : Tracks p ts w (es ++ es') :=
  ⟨h.sound, h.policy, h.targets, fun hn => absurd hn hf, fun hn => absurd hn hf,
    fun _ φ hφ => h.refuted hf φ fun e he => hφ e (by simp [he])⟩

theorem Tracks.ask (h : Tracks p ts w es) (hts : ∀ c ∈ ts, p.Keyless c.type) {a : Ask}
    (hq : ∀ q i, a = .unifyType q i → p.Keyless q) (ha : a.InRange ts.length) :
    Tracks p ts (w.ask a) (es ++ (a.equation? ts).toList) := by
  cases a with
  | satisfied =>
    rw [Ask.equation?, Option.toList_none, List.append_nil]
    exact ⟨⟨h.sound.scopes, h.sound.hygienic, h.sound.store, h.sound.intact⟩, h.policy, h.targets,
      h.covered, h.solved, h.refuted⟩
  | unifyType q i =>
    rw [Workspace.ask, unifyType]
    cases hf : w.failure with
    | some d => exact h.append_of_failure (by simp [hf]) _
    | none =>
      obtain ⟨c, hc⟩ : ∃ c, ts[i]? = some c := ⟨_, List.getElem?_eq_getElem ha⟩
      have hr := resolveType_resolves h.sound q
      have hi : i < (w.resolveType q).2.targets.length := by rw [hr.extend.targets, h.targets]; exact ha
      simp only [h.targets, hc, Ask.equation?]
      exact h.unify hf (hq q i rfl) (hts c (List.mem_of_getElem? hc)) hr
        (resolveTarget_resolves hr.sound hi c) _ _
  | unifyClues i j =>
    rw [Workspace.ask, unifyClues]
    cases hf : w.failure with
    | some d => exact h.append_of_failure (by simp [hf]) _
    | none =>
      obtain ⟨c, hc⟩ : ∃ c, ts[i]? = some c := ⟨_, List.getElem?_eq_getElem ha.1⟩
      obtain ⟨d, hd⟩ : ∃ d, ts[j]? = some d := ⟨_, List.getElem?_eq_getElem ha.2⟩
      have hr := resolveTarget_resolves h.sound (h.targets ▸ ha.1) c
      have hj : j < (w.resolveTarget i c).2.targets.length := by
        rw [hr.extend.targets, h.targets]
        exact ha.2
      simp only [h.targets, hc, hd, Ask.equation?]
      exact h.unify hf (hts c (List.mem_of_getElem? hc)) (hts d (List.mem_of_getElem? hd)) hr
        (resolveTarget_resolves hr.sound hj d) _ _

theorem Tracks.asks (hp : ∀ c, p.key? c = none) (h : Tracks p ts w es) {asks : List Ask}
    (ha : ∀ a ∈ asks, a.InRange ts.length) :
    Tracks p ts (asks.foldl Workspace.ask w) (es ++ asks.filterMap (Ask.equation? ts)) := by
  induction asks generalizing w es with
  | nil => simpa using h
  | cons a asks ih =>
    have hstep := h.ask (fun c _ => p.keyless_of_forall hp c.type)
      (fun q _ _ => p.keyless_of_forall hp q) (ha a (by simp))
    have hi := ih hstep fun b hb => ha b (by simp [hb])
    rw [List.append_assoc] at hi
    rw [List.foldl_cons, List.filterMap_cons]
    cases he : a.equation? ts <;> simpa [he] using hi

theorem forall_equation_iff (asks : List Ask) (φ : Option Nat → Substitution) :
    (∀ e ∈ asks.filterMap (Ask.equation? ts), e.Holds φ) ↔
      ∀ a ∈ asks, a.Holds ts (fun i => φ (some i)) (φ none) := by
  simp only [Ask.holds_iff, List.mem_filterMap]
  exact ⟨fun h a ha e he => h e ⟨a, ha, he⟩, fun h e ⟨a, ha, he⟩ => h a ha e he⟩

/-- A workspace that knows its equations and has not failed refines its targets to their most
general solution. -/
theorem Tracks.refined (h : Tracks p ts w es) (hf : w.failure = none) :
    ∃ types, w.verdict = .refined types ∧ types.length = ts.length ∧
      (∀ φ, (∀ e ∈ es, e.Holds φ) → ∃ δ : Substitution, ∀ i (c : Clue σ κ) (q : Qualified),
        ts[i]? = some c → types[i]? = some q → c.type.term.subst (φ (some i)) = q.term.subst δ) ∧
      ∃ φ, (∀ e ∈ es, e.Holds φ) ∧ ∀ i (c : Clue σ κ) (q : Qualified),
        ts[i]? = some c → types[i]? = some q → q.term = c.type.term.subst (φ (some i)) := by
  obtain ⟨types, w', hts, hw', he, hlen, hall⟩ := h.sound.exists_types hf
  have hv : w.verdict = .refined types := by rw [verdict, hf, hts]
  rw [h.targets] at hlen hall
  have hB := h.sound.store.acyclic
  -- the type of each target is its stored type, resolved and then replaced in full
  have hterm : ∀ i (c : Clue σ κ) (q : Qualified), ts[i]? = some c → types[i]? = some q →
      (w'.scopeAt (some i)).Covers c.type.term ∧
      q.term = w.store.bindings.substitute (c.type.term.rename (w'.scopeAt (some i)).resolved) := by
    intro i c q hc hq
    obtain ⟨hcov, hins⟩ := hall i c q hc hq
    exact ⟨hcov.term, Store.term_of_instantiate hins⟩
  have hholds : ∀ θ, (∀ e ∈ es, e.HoldsIn w' θ) ↔ Bindings.Solves θ w.store.bindings := by
    intro θ
    rw [h.solved hf θ]
    exact forall₂_congr fun e hm => (h.covered hf e hm).holdsIn_iff he θ
  refine ⟨types, hv, hlen, fun φ hφ => ?_, ?_⟩
  · obtain ⟨θ, hθ⟩ := hw'.hygienic.exists_joint φ
    have hs : Bindings.Solves θ w.store.bindings := by
      rw [← hholds]
      intro e hm
      have hcov := (h.covered hf e hm).extend he
      rw [Equation.HoldsIn, hθ _ _ hcov.1, hθ _ _ hcov.2]
      exact hφ e hm
    refine ⟨θ, fun i c q hc hq => ?_⟩
    obtain ⟨hcov, hq⟩ := hterm i c q hc hq
    rw [hq, hs.subst_substitute, hθ _ _ hcov]
  · refine ⟨fun k v => w.store.bindings.solution ((w'.scopeAt k).resolved v), fun e hm => ?_,
      fun i c q hc hq => ?_⟩
    · rw [← Equation.holdsIn_iff_holds]
      exact (hholds _).2 (Bindings.solves_solution hB) e hm
    · rw [(hterm i c q hc hq).2, ← Bindings.subst_solution hB, Term.subst_rename]

/-- Under a policy without keys a rule refines its targets exactly when there are substitutions, one
for each target and one for the types that the rule writes, under which everything that it asked to
be equal is equal. The types it then gives come from one such choice, and what any such choice makes
of the stored types are instances of them. -/
theorem verdict_ofAsks (hp : p.finders = []) (ts : List (Clue σ κ)) (asks : List Ask)
    (ha : ∀ a ∈ asks, a.InRange ts.length) :
    ((∃ types, (run (.ofAsks asks) (new p ts)).verdict = .refined types) ↔
      ∃ θ ρ, ∀ a ∈ asks, a.Holds ts θ ρ) ∧
    ∀ types, (run (.ofAsks asks) (new p ts)).verdict = .refined types →
      types.length = ts.length ∧
      (∀ θ ρ, (∀ a ∈ asks, a.Holds ts θ ρ) → ∃ δ : Substitution, ∀ i (c : Clue σ κ) (q : Qualified),
        ts[i]? = some c → types[i]? = some q → c.type.term.subst (θ i) = q.term.subst δ) ∧
      ∃ θ ρ, (∀ a ∈ asks, a.Holds ts θ ρ) ∧ ∀ i (c : Clue σ κ) (q : Qualified),
        ts[i]? = some c → types[i]? = some q → q.term = c.type.term.subst (θ i) := by
  have hkey : ∀ c, p.key? c = none := fun c => by simp [Policy.key?, hp]
  have h := (new_tracks p ts).asks hkey ha
  rw [List.nil_append, ← run_ofAsks] at h
  -- a choice of substitutions is one substitution for each scope
  have joint {θ : Nat → Substitution} {ρ : Substitution} (hθ : ∀ a ∈ asks, a.Holds ts θ ρ) :
      ∀ e ∈ asks.filterMap (Ask.equation? ts), e.Holds fun k => k.elim ρ θ :=
    (forall_equation_iff asks _).2 hθ
  cases hf : (run (.ofAsks asks) (new p ts)).failure with
  | none =>
    obtain ⟨types, hv, hlen, hinst, φ, hφ, hterm⟩ := h.refined hf
    have hsol : ∀ a ∈ asks, a.Holds ts (fun i => φ (some i)) (φ none) :=
      (forall_equation_iff asks φ).1 hφ
    rw [hv]
    refine ⟨⟨fun _ => ⟨_, _, hsol⟩, fun _ => ⟨types, rfl⟩⟩, fun types' ht => ?_⟩
    cases ht
    exact ⟨hlen, fun θ ρ hθ => hinst _ (joint hθ), _, _, hsol, hterm⟩
  | some d =>
    have hno : ∀ types, (run (.ofAsks asks) (new p ts)).verdict ≠ .refined types := by
      intro types
      simp only [verdict, hf]
      split <;> simp
    refine ⟨⟨fun ⟨types, ht⟩ => absurd ht (hno types), fun ⟨θ, ρ, hθ⟩ => ?_⟩,
      fun types ht => absurd ht (hno types)⟩
    exact absurd (joint hθ) (h.refuted (by simp [hf]) _)

/-- One clue at two indices: the placeholder of its type stands for a variable of each. -/
theorem verdict_ofAsks_shared_clue :
    let list (t : String) : Qualified := .plain (.app (.atom "List") (.atom t))
    let c : Clue Unit Unit := ⟨⟨"Hole", 1, 1⟩, (), (), [], ∅,
      .plain (.app (.atom "List") (.var "any")), []⟩
    let asks : List Ask := [.satisfied, .unifyType (list "Int") 0, .unifyType (list "String") 1]
    ({} : Policy).finders = [] ∧ (∀ a ∈ asks, a.InRange [c, c].length) ∧
      ∃ θ ρ, ∀ a ∈ asks, a.Holds [c, c] θ ρ := by
  intro list c asks
  have ha : ∀ a ∈ asks, a.InRange [c, c].length := by simp [asks, Ask.InRange]
  exact ⟨rfl, ha, (verdict_ofAsks rfl [c, c] asks ha).1.1 ⟨[list "Int", list "String"], by decide⟩⟩

end Workspace
end TypeClues
