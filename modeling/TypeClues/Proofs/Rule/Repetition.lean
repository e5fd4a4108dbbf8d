import TypeClues.Proofs.Rule.Blindness
import TypeClues.Proofs.Rule.Equations
import TypeClues.Proofs.Rule.Failure
import TypeClues.Proofs.Rule.Invocation
import TypeClues.Proofs.Store.Merging
import TypeClues.Proofs.Variants

/-!
# A rule on its own result

A blind rule poses the same equations when it runs again on targets to which its result has been
given, but every target has new variables: what the first run has made equal is connected by nothing
but the rule itself. The solution of the first run is still a solution, since each target is now as
the first run wanted it. The most general one is no more general, since it starts from the result.
So the second result has the first as an instance, and is an instance of it.
-/
namespace TypeClues

def Call.ask? {κ : Type} : Call κ → Option Ask
  | .satisfied => some .satisfied
  | .unifyType q i => some (.unifyType q i)
  | .unifyClues i j => some (.unifyClues i j)
  | _ => none

/-- A call that does not fail unless it asks for types to be the same. -/
def Call.Valid {κ : Type} (count : Nat) : Call κ → Prop
  | .fail _ _ => False
  | .unifyType _ i => i < count
  | .unifyClues i j => i < count ∧ j < count
  | _ => True

namespace Ask
variable {σ κ : Type}

/-- What is asked for depends only on what the substitutions make of the types. -/
theorem Holds.transfer {ts ts' : List (Clue σ κ)} {θ θ' : Nat → Substitution} {ρ : Substitution}
    {a : Ask} (h : a.Holds ts θ ρ) (hlen : ts'.length = ts.length)
    (hs : ∀ (i : Nat) c c', ts[i]? = some c → ts'[i]? = some c' →
      c'.type.term.subst (θ' i) = c.type.term.subst (θ i)) : a.Holds ts' θ' ρ := by
  have hback : ∀ (i : Nat) c', ts'[i]? = some c' → ∃ c, ts[i]? = some c := by
    intro i c' hc'
    have hi := (List.getElem?_eq_some_iff.1 hc').1
    exact ⟨_, List.getElem?_eq_getElem (hlen ▸ hi)⟩
  cases a with
  | satisfied => trivial
  | unifyType q i =>
    intro c' hc'
    obtain ⟨c, hc⟩ := hback i c' hc'
    rw [hs i c c' hc hc']
    exact h c hc
  | unifyClues i j =>
    intro c' d' hc' hd'
    obtain ⟨c, hc⟩ := hback i c' hc'
    obtain ⟨d, hd⟩ := hback j d' hd'
    rw [hs i c c' hc hc', hs j d d' hd hd']
    exact h c d hc hd

end Ask

theorem Qualified.eq_plain {q : Qualified} (h : q.constraints = ∅) : q = .plain q.term := by
  rw [plain, ← h]

theorem Qualified.constraints_rename_eq_empty {q : Qualified} (h : q.constraints = ∅)
    (f : String → String) : (q.rename f).constraints = ∅ := by
  rw [eq_plain h]
  rfl

theorem Qualified.equivalent_term {p q : Qualified} (h : p.Equivalent q) :
    p.term.Equivalent q.term := by
  have hcov {p q : Qualified} (h : p.Equivalent q) : p.term.Covers q.term := by
    obtain ⟨f, -, rfl⟩ := h.variant
    exact ⟨_, rfl⟩
  exact Term.equivalent_iff_covers.2 ⟨hcov h, hcov h.symm⟩

theorem Qualified.Equivalent.constraints_eq_empty {p q : Qualified} (h : p.Equivalent q)
    (hp : p.constraints = ∅) : q.constraints = ∅ := by
  obtain ⟨f, -, rfl⟩ := h.variant
  exact constraints_rename_eq_empty hp f

theorem Policy.keyless_of_eq_empty (p : Policy) {q : Qualified} (h : q.constraints = ∅) :
    p.Keyless q := by
  intro f c hc
  rw [Qualified.constraints_rename_eq_empty h] at hc
  exact absurd hc List.not_mem_nil

theorem Store.constraints_unify {p : Policy} {s : Store} {a b : Qualified} (ha : a.constraints = ∅)
    (hb : b.constraints = ∅) : (s.unify p a b).2.constraints = s.constraints := by
  rw [unify, ha, hb]
  apply guarded_keeps (I := fun s' => s'.constraints = s.constraints) rfl
  exact within_keeps (I := fun s' => s'.constraints = s.constraints) (fun _ _ h => h)
    (constraints_unifyTerms s a.term b.term) _

theorem Store.constraints_of_instantiate {s : Store} (hs : s.constraints = []) {q r : Qualified}
    (hq : q.constraints = ∅) (h : s.instantiate q = .ok r) : r.constraints = ∅ := by
  rw [instantiate, answer, hs, hq] at h
  split at h
  · cases h
  · cases h
    rfl

namespace Workspace
variable {σ κ : Type} {p : Policy} {ts ts' : List (Clue σ κ)} {w w' : Workspace σ κ}
  {es : List Equation} {cs : List (Call κ)} {s : Script κ} {types : List Qualified}

theorem valid_of_failure {c : Call κ} (hf : w.failure = none)
    (hc : (w.serve c).failure = none) : c.Valid w.targets.length := by
  have hr : ∀ d, ¬ w.Raises c d := by
    intro d hd
    rw [(failure_serve hf c).2 hd] at hc
    cases hc
  cases c with
  | fail message blame => exact hr _ (.stated message blame)
  | unifyType q i =>
    by_contra hi
    exact hr _ (.noClue (List.getElem?_eq_none (Nat.le_of_not_lt hi)))
  | unifyClues i j =>
    by_contra hij
    by_cases hi : i < w.targets.length
    · have hj : w.targets.length ≤ j := Nat.le_of_not_lt fun hj => hij ⟨hi, hj⟩
      exact hr _ (.noRight (List.getElem?_eq_getElem hi) (List.getElem?_eq_none hj))
    · exact hr _ (.noLeft (List.getElem?_eq_none (Nat.le_of_not_lt hi)))
  | _ => trivial

theorem valid_of_failure_serveAll (h : (w.serveAll cs).failure = none) :
    ∀ c ∈ cs, c.Valid w.targets.length := by
  induction cs generalizing w with
  | nil => simp
  | cons c cs ih =>
    have hc : (w.serve c).failure = none := failure_of_serveAll h
    have hw : w.failure = none :=
      failure_of_serveAll (show (w.serveAll (c :: cs)).failure = none from h)
    intro x hx
    rcases List.mem_cons.1 hx with rfl | hx
    · exact valid_of_failure hw hc
    · have hv := ih h x hx
      rwa [targets_serve] at hv

theorem valid_of_refined (h : (run s (new p ts)).verdict = .refined types) :
    ∀ c ∈ calls s (new p ts), c.Valid ts.length := by
  have hf := failure_of_refined h
  rw [run_eq_serveAll] at hf
  exact valid_of_failure_serveAll hf

theorem Sound.extends_instantiate (hw : w.Sound) (i : Nat) : w.Extends (w.instantiate i).2 := by
  rw [Workspace.instantiate]
  cases w.failure with
  | some d => exact .refl w
  | none =>
    rw [instantiateTarget]
    cases hc : w.targets[i]? with
    | none => exact .refl w
    | some c => exact (resolveTarget_resolves hw (List.getElem?_eq_some_iff.1 hc).1 c).extend

theorem Tracks.extend (h : Tracks p ts w es) (he : w.Extends w') (hw : w'.Sound) :
    Tracks p ts w' es where
  sound := hw
  policy := he.policy.trans h.policy
  targets := he.targets.trans h.targets
  covered hf e hm := (h.covered (he.failure ▸ hf) e hm).extend he
  solved hf θ := by
    rw [he.store, h.solved (he.failure ▸ hf) θ]
    exact forall₂_congr fun e hm => ((h.covered (he.failure ▸ hf) e hm).holdsIn_iff he θ).symm
  refuted hf := h.refuted (he.failure ▸ hf)

theorem Tracks.serve (h : Tracks p ts w es) (hts : ∀ c ∈ ts, p.Keyless c.type) {c : Call κ}
    (hq : ∀ q i, c = .unifyType q i → p.Keyless q) (hc : c.Valid ts.length) :
    Tracks p ts (w.serve c) (es ++ (c.ask?.bind (Ask.equation? ts)).toList) := by
  have hother (hn : c.ask? = none) (hs : Tracks p ts (w.serve c) es) :
      Tracks p ts (w.serve c) (es ++ (c.ask?.bind (Ask.equation? ts)).toList) := by
    rw [hn, Option.bind_none, Option.toList_none, List.append_nil]
    exact hs
  cases c with
  | arity => exact hother rfl h
  | kind i => exact hother rfl h
  | constant i => exact hother rfl h
  | instantiate i =>
    exact hother rfl (h.extend (h.sound.extends_instantiate i) (h.sound.instantiate i))
  | satisfied => exact h.ask (a := .satisfied) hts (by simp) trivial
  | fail message blame => exact hc.elim
  | unifyType q i =>
    refine h.ask (a := .unifyType q i) hts ?_ hc
    intro q' i' ha
    cases ha
    exact hq q i rfl
  | unifyClues i j => exact h.ask (a := .unifyClues i j) hts (by simp) hc
  | note o =>
    exact hother rfl ⟨⟨h.sound.scopes, h.sound.hygienic, h.sound.store, h.sound.intact⟩, h.policy,
      h.targets, h.covered, h.solved, h.refuted⟩

theorem Tracks.serveAll (h : Tracks p ts w es) (hts : ∀ c ∈ ts, p.Keyless c.type)
    (hq : ∀ q i, .unifyType q i ∈ cs → p.Keyless q) (hc : ∀ c ∈ cs, c.Valid ts.length) :
    Tracks p ts (w.serveAll cs) (es ++ (cs.filterMap Call.ask?).filterMap (Ask.equation? ts)) := by
  induction cs generalizing w es with
  | nil => simpa using h
  | cons c cs ih =>
    have hstep := h.serve hts (fun q i hi => hq q i (hi ▸ List.mem_cons_self))
      (hc c List.mem_cons_self)
    have hrest := ih hstep (fun q i hm => hq q i (List.mem_cons_of_mem c hm))
      fun d hd => hc d (List.mem_cons_of_mem c hd)
    rw [List.append_assoc] at hrest
    rw [List.filterMap_filterMap, List.filterMap_cons, ← List.filterMap_filterMap]
    cases he : c.ask?.bind (Ask.equation? ts) <;> simpa [he] using hrest

theorem filterMap_ask?_of_alike (hs : s.Blind) (h : w.Alike w') :
    (calls s w').filterMap Call.ask? = (calls s w).filterMap Call.ask? := by
  have hnote (l : List (Call κ)) :
      (l.filter fun c => !c.isNote).filterMap Call.ask? = l.filterMap Call.ask? := by
    rw [List.filterMap_filter]
    congr 1
    funext c
    cases c <;> rfl
  rw [← hnote, filter_calls_of_alike hs h, hnote]

/-- What holds of the calls of one run, and of notes, holds of the calls of the other. -/
theorem forall_calls_of_alike (hs : s.Blind) (h : w.Alike w') {P : Call κ → Prop}
    (hnote : ∀ o, P (.note o)) (hP : ∀ c ∈ calls s w, P c) : ∀ c ∈ calls s w', P c := by
  intro c hc
  cases hn : c.isNote with
  | true =>
    cases c with
    | note o => exact hnote o
    | _ => cases hn
  | false =>
    have hm : c ∈ (calls s w').filter fun c => !c.isNote := List.mem_filter.2 ⟨hc, by simp [hn]⟩
    rw [filter_calls_of_alike hs h] at hm
    exact hP c (List.mem_filter.1 hm).1

section Plain
variable (hts : ∀ c ∈ ts, c.type.constraints = ∅)
include hts

theorem constraints_serve (hw : w.targets = ts) {c : Call κ}
    (hq : ∀ q i, c = .unifyType q i → q.constraints = ∅) :
    (w.serve c).store.constraints = w.store.constraints := by
  have hfail (v : Workspace σ κ) (x : Complaint) (blame : List Nat) :
      (v.fail x blame).store = v.store := by
    rw [fail]
    split <;> rfl
  have hunify (v : Workspace σ κ) {a b : Qualified} (ha : a.constraints = ∅)
      (hb : b.constraints = ∅) (x : Complaint) (blame : List Nat) :
      (v.unify a b x blame).store.constraints = v.store.constraints := by
    rw [unify]
    split
    · exact Store.constraints_unify ha hb
    · rw [hfail]
      exact Store.constraints_unify ha hb
  have htype {i : Nat} {c : Clue σ κ} (hc : w.targets[i]? = some c) : c.type.constraints = ∅ :=
    hts c (hw ▸ List.mem_of_getElem? hc)
  cases c with
  | instantiate i =>
    rw [serve, instantiate]
    cases w.failure with
    | some d => rfl
    | none =>
      rw [instantiateTarget]
      cases w.targets[i]? with
      | none => rfl
      | some c => rfl
  | fail message blame => rw [serve, hfail]
  | unifyType q i =>
    rw [serve, unifyType]
    cases w.failure with
    | some d => rfl
    | none =>
      cases hc : w.targets[i]? with
      | none => rw [hfail]
      | some c =>
        exact hunify _ (Qualified.constraints_rename_eq_empty (hq q i rfl) _)
          (Qualified.constraints_rename_eq_empty (htype hc) _) _ _
  | unifyClues i j =>
    rw [serve, unifyClues]
    cases w.failure with
    | some d => rfl
    | none =>
      cases hc : w.targets[i]? with
      | none => rw [hfail]
      | some c =>
        cases hd : w.targets[j]? with
        | none => rw [hfail]
        | some d =>
          exact hunify _ (Qualified.constraints_rename_eq_empty (htype hc) _)
            (Qualified.constraints_rename_eq_empty (htype hd) _) _ _
  | _ => rfl

theorem constraints_serveAll (hw : w.targets = ts)
    (hq : ∀ q i, .unifyType q i ∈ cs → q.constraints = ∅) :
    (w.serveAll cs).store.constraints = w.store.constraints := by
  induction cs generalizing w with
  | nil => rfl
  | cons c cs ih =>
    rw [serveAll_cons, ih ((w.targets_serve c).trans hw)
      fun q i hm => hq q i (List.mem_cons_of_mem c hm)]
    exact constraints_serve hts hw fun q i hi => hq q i (hi ▸ List.mem_cons_self)

/-- Where nothing has constraints the result has none. -/
theorem constraints_of_refined
    (hq : ∀ q i, .unifyType q i ∈ calls s (new p ts) → q.constraints = ∅)
    (h : (run s (new p ts)).verdict = .refined types) : ∀ q ∈ types, q.constraints = ∅ := by
  have hstore : (run s (new p ts)).store.constraints = [] := by
    rw [run_eq_serveAll, constraints_serveAll hts rfl hq]
    rfl
  intro q hq
  obtain ⟨c, hc, f, hins⟩ := exists_target_of_refined h hq
  exact Store.constraints_of_instantiate hstore
    (Qualified.constraints_rename_eq_empty (hts c hc) f) hins

end Plain

theorem tracks_run (hts : ∀ c ∈ ts, c.type.constraints = ∅)
    (hq : ∀ q i, .unifyType q i ∈ calls s (new p ts) → q.constraints = ∅)
    (hc : ∀ c ∈ calls s (new p ts), c.Valid ts.length) :
    Tracks p ts (run s (new p ts))
      (((calls s (new p ts)).filterMap Call.ask?).filterMap (Ask.equation? ts)) := by
  have h := (new_tracks p ts).serveAll (fun c hm => p.keyless_of_eq_empty (hts c hm))
    (fun q i hm => p.keyless_of_eq_empty (hq q i hm)) hc
  rwa [← run_eq_serveAll, List.nil_append] at h

/-- The same equations on targets that have the result of the first run have the same result, up to
the names of variables. -/
theorem Tracks.refined_again {asks : List Ask}
    (h : Tracks p ts w (asks.filterMap (Ask.equation? ts))) (hv : w.verdict = .refined types)
    (h' : Tracks p ts' w' (asks.filterMap (Ask.equation? ts'))) (hlen : ts'.length = ts.length)
    (hstored : ∀ (i : Nat) c q, ts'[i]? = some c → types[i]? = some q →
      q.term.Equivalent c.type.term) :
    ∃ types', w'.verdict = .refined types' ∧ types'.length = types.length ∧
      ∀ (i : Nat) q q', types[i]? = some q → types'[i]? = some q' → q.term.Equivalent q'.term := by
  obtain ⟨types₁, hv₁, hlen₁, -, φ, hφ, hterm⟩ := h.refined (failure_of_refined hv)
  obtain rfl : types = types₁ := Verdict.refined.inj (hv.symm.trans hv₁)
  have hget : ∀ {i : Nat} {c}, ts'[i]? = some c → ∃ q, types[i]? = some q := by
    intro i c hc
    have hi := (List.getElem?_eq_some_iff.1 hc).1
    exact ⟨_, List.getElem?_eq_getElem (hlen₁.symm ▸ hlen ▸ hi)⟩
  -- each target is what the first run has made of it, up to names
  have hback : ∀ i : Nat, ∃ θ : Substitution, ∀ c q, ts'[i]? = some c → types[i]? = some q →
      c.type.term.subst θ = q.term := by
    intro i
    cases hc : ts'[i]? with
    | none => exact ⟨.var, by simp⟩
    | some c =>
      obtain ⟨q, hq⟩ := hget hc
      obtain ⟨-, θ, hθ⟩ := Term.equivalent_iff_covers.1 (hstored i c q hc hq)
      refine ⟨θ, ?_⟩
      intro c' q' hc' hq'
      cases hc'
      obtain rfl : q = q' := Option.some.inj (hq.symm.trans hq')
      exact hθ.symm
  choose ψ hψ using hback
  -- so the first solution solves the second system too
  have hsolves : ∀ e ∈ asks.filterMap (Ask.equation? ts'),
      e.Holds fun k => k.elim (φ none) ψ := by
    rw [forall_equation_iff]
    intro a ha
    apply ((forall_equation_iff asks φ).1 hφ a ha).transfer hlen
    intro i c c' hc hc'
    obtain ⟨q, hq⟩ := hget hc'
    exact (hψ i c' q hc' hq).trans (hterm i c q hc hq)
  have hf' : w'.failure = none := by
    by_contra hn
    exact h'.refuted hn _ hsolves
  obtain ⟨types', hv', hlen', hgeneral, φ', -, hterm'⟩ := h'.refined hf'
  obtain ⟨δ, hδ⟩ := hgeneral _ hsolves
  refine ⟨types', hv', hlen'.trans (hlen.trans hlen₁.symm), ?_⟩
  intro i q q' hq hq'
  have hi : i < ts'.length := hlen' ▸ (List.getElem?_eq_some_iff.1 hq').1
  have hc : ts'[i]? = some ts'[i] := List.getElem?_eq_getElem hi
  obtain ⟨hcov, -⟩ := Term.equivalent_iff_covers.1 (hstored i _ q hc hq)
  apply Term.equivalent_iff_covers.2
  constructor
  · exact hcov.trans ⟨_, hterm' i _ q' hc hq'⟩
  · exact ⟨δ, (hψ i _ q hc hq).symm.trans (hδ i _ q' hc hq')⟩

/-- A blind rule without constraints that runs again on targets that have its result ends with the
same result, up to the names of variables. -/
theorem refined_of_repeated (hs : s.Blind) (hts : ∀ c ∈ ts, c.type.constraints = ∅)
    (hq : ∀ q i, .unifyType q i ∈ calls s (new p ts) → q.constraints = ∅)
    (h : (run s (new p ts)).verdict = .refined types)
    (hnature : ts'.map Clue.nature = ts.map Clue.nature)
    (hstored : ∀ (i : Nat) c q, ts'[i]? = some c → types[i]? = some q → q.Equivalent c.type) :
    ∃ types', (run s (new p ts')).verdict = .refined types' ∧ types'.length = types.length ∧
      ∀ (i : Nat) q q', types[i]? = some q → types'[i]? = some q' → q.Equivalent q' := by
  have halike : (new p ts).Alike (new p ts') := hnature
  have hplain := constraints_of_refined hts hq h
  have hvalid := valid_of_refined h
  -- the second run makes the same calls on targets that have no constraints either
  have hlen : types.length = ts.length := (narrows_of_refined h).1
  have hts' : ∀ c ∈ ts', c.type.constraints = ∅ := by
    intro c hc
    obtain ⟨i, hi⟩ := List.mem_iff_getElem?.1 hc
    have hlt : i < types.length := hlen ▸ halike.length ▸ (List.getElem?_eq_some_iff.1 hi).1
    exact (hstored i c _ hi (List.getElem?_eq_getElem hlt)).constraints_eq_empty
      (hplain _ (List.getElem_mem hlt))
  have hq' := forall_calls_of_alike (P := fun c => ∀ q i, c = .unifyType q i → q.constraints = ∅)
    hs halike (by simp) fun c hc q i hi => hq q i (hi ▸ hc)
  have hvalid' := forall_calls_of_alike (P := fun c => c.Valid ts'.length) hs halike
    (fun _ => trivial) (halike.length.symm ▸ hvalid)
  have htracks := tracks_run hts' (fun q i hm => hq' _ hm q i rfl) hvalid'
  rw [filterMap_ask?_of_alike hs halike] at htracks
  obtain ⟨types', hv', hlen', hall⟩ := (tracks_run hts hq hvalid).refined_again h htracks
    halike.length fun i c q hc hi => Qualified.equivalent_term (hstored i c q hc hi)
  have hplain' := constraints_of_refined hts' (fun q i hm => hq' _ hm q i rfl) hv'
  refine ⟨types', hv', hlen', ?_⟩
  intro i q q' hi hi'
  rw [Qualified.eq_plain (hplain q (List.mem_of_getElem? hi)),
    Qualified.eq_plain (hplain' q' (List.mem_of_getElem? hi')), Qualified.equivalent_plain]
  exact hall i q q' hi hi'

end Workspace
end TypeClues
