import TypeClues.Policy.Finder
import TypeClues.Proofs.Rule.Assertion
import TypeClues.Proofs.Rule.Repetition
import TypeClues.Proofs.Store.Answers

/-!
# What a rule unifies comes out equal

Names that a workspace has given to the variables of a type are kept to its end. So the store of a
rule without failure is what the unifications of the rule, written with the names of the end, make
of an empty store. Each of them leaves two types about which the store gives the same answer, and
the types that the rule ends with are such answers.
-/
namespace TypeClues
variable {σ κ : Type}

namespace Workspace

def named (w : Workspace σ κ) (k : Option Nat) (q : Qualified) : Qualified :=
  q.rename (w.scopeAt k).resolved

/-- The second workspace has the same targets, and knows all names of the first. -/
structure Later (w v : Workspace σ κ) : Prop where
  policy : v.policy = w.policy
  targets : v.targets = w.targets
  grows : ∀ k, (w.scopeAt k).Extends (v.scopeAt k)

variable {w w' v : Workspace σ κ}

theorem Later.refl (w : Workspace σ κ) : w.Later w := ⟨rfl, rfl, fun _ => .refl _⟩

theorem Later.trans (h : w.Later w') (h' : w'.Later v) : w.Later v :=
  ⟨h'.policy.trans h.policy, h'.targets.trans h.targets,
    fun k => (h.grows k).trans (h'.grows k)⟩

theorem Extends.later (h : w.Extends w') : w.Later w' := ⟨h.policy, h.targets, h.grows⟩

theorem Resolves.named_eq {k : Option Nat} {q : Qualified} {r : Qualified × Workspace σ κ}
    (h : w.Resolves k q r) (hv : r.2.Later v) : v.named k q = r.1 := by
  rw [h.type]
  exact h.covers.rename_eq (hv.grows k)

end Workspace

open Workspace

def Call.change? (v : Workspace σ κ) : Call κ → Option Store.Change
  | .unifyType q i => v.targets[i]?.map fun c => .types (v.named none q) (v.named (some i) c.type)
  | .unifyClues i j => v.targets[i]?.bind fun c => v.targets[j]?.map fun d =>
    .types (v.named (some i) c.type) (v.named (some j) d.type)
  | _ => none

namespace Workspace
variable {w w' v : Workspace σ κ} {call : Call κ} {cs : List (Call κ)}

/-- What a call that does not fail does: the store makes the change that the call asks for, under
names that stay. -/
structure Served (w : Workspace σ κ) (call : Call κ) (w' : Workspace σ κ) : Prop where
  later : w.Later w'
  store : ∀ v, w'.Later v →
    Store.applyAll w.policy (call.change? v).toList w.store = (.ok (), w'.store)

theorem Extends.served (h : w.Extends w') (hc : ∀ v : Workspace σ κ, call.change? v = none) :
    Served w call w' := by
  refine ⟨h.later, ?_⟩
  intro v _
  rw [hc, h.store]
  rfl

theorem served_unify {k l : Option Nat} {s t : Qualified} {a b : Qualified × Workspace σ κ}
    (ha : w.Resolves k s a) (hb : a.2.Resolves l t b) {x : Complaint} {blame : List Nat}
    (hf : (b.2.unify a.1 b.1 x blame).failure = none)
    (hc : ∀ v, w.Later v → call.change? v = some (.types (v.named k s) (v.named l t))) :
    Served w call (b.2.unify a.1 b.1 x blame) := by
  obtain ⟨s', hu, hw⟩ := unify_of_failure_eq_none hf
  have he : w.Extends b.2 := ha.extend.trans hb.extend
  rw [hw]
  -- the store has no part in what is later
  have hlater {v : Workspace σ κ} (hv : Later { b.2 with store := s' } v) : b.2.Later v :=
    ⟨hv.policy, hv.targets, hv.grows⟩
  refine ⟨⟨he.policy, he.targets, he.grows⟩, ?_⟩
  intro v hv
  have hvb := hlater hv
  rw [hc v (he.later.trans hvb), hb.named_eq hvb, ha.named_eq (hb.extend.later.trans hvb)]
  rw [he.policy, he.store] at hu
  rw [Option.toList_some, Store.applyAll, Store.apply, hu]
  rfl

theorem Sound.served (hw : w.Sound) (hf : w.failure = none)
    (hc : (w.serve call).failure = none) : Served w call (w.serve call) := by
  have hvalid := valid_of_failure hf hc
  cases call with
  | arity => exact (Extends.refl w).served fun _ => rfl
  | kind i => exact (Extends.refl w).served fun _ => rfl
  | constant i => exact (Extends.refl w).served fun _ => rfl
  | instantiate i => exact (hw.extends_instantiate i).served fun _ => rfl
  | satisfied => exact ⟨⟨rfl, rfl, fun _ => .refl _⟩, fun _ _ => rfl⟩
  | fail message blame => exact hvalid.elim
  | unifyType q i =>
    obtain ⟨c, hi⟩ : ∃ c, w.targets[i]? = some c := ⟨_, List.getElem?_eq_getElem hvalid⟩
    have ha := resolveType_resolves hw q
    have hb := resolveTarget_resolves ha.sound (ha.extend.targets ▸ hvalid) c
    simp only [Workspace.serve, Workspace.unifyType, hf, hi] at hc ⊢
    apply served_unify ha hb hc
    intro v hv
    rw [Call.change?, hv.targets, hi, Option.map_some]
  | unifyClues i j =>
    obtain ⟨c, hi⟩ : ∃ c, w.targets[i]? = some c := ⟨_, List.getElem?_eq_getElem hvalid.1⟩
    obtain ⟨d, hj⟩ : ∃ d, w.targets[j]? = some d := ⟨_, List.getElem?_eq_getElem hvalid.2⟩
    have ha := resolveTarget_resolves hw hvalid.1 c
    have hb := resolveTarget_resolves ha.sound (ha.extend.targets ▸ hvalid.2) d
    simp only [Workspace.serve, Workspace.unifyClues, hf, hi, hj] at hc ⊢
    apply served_unify ha hb hc
    intro v hv
    rw [Call.change?, hv.targets, hi, Option.bind_some, hj, Option.map_some]
  | note o => exact ⟨⟨rfl, rfl, fun _ => .refl _⟩, fun _ _ => rfl⟩

theorem Sound.applyAll_changes (hw : w.Sound) (hf : (w.serveAll cs).failure = none) :
    w.Later (w.serveAll cs) ∧ ∀ v, (w.serveAll cs).Later v →
      Store.applyAll w.policy (cs.filterMap (Call.change? v)) w.store =
        (.ok (), (w.serveAll cs).store) := by
  induction cs generalizing w with
  | nil => exact ⟨.refl w, fun _ _ => rfl⟩
  | cons c cs ih =>
    have hfw : w.failure = none :=
      failure_of_serveAll (show (w.serveAll (c :: cs)).failure = none from hf)
    have hc := hw.served hfw (failure_of_serveAll hf)
    obtain ⟨hlater, hstore⟩ := ih (hw.serve c) hf
    refine ⟨hc.later.trans hlater, ?_⟩
    intro v hv
    have hcons : (c :: cs).filterMap (Call.change? v) =
        (c.change? v).toList ++ cs.filterMap (Call.change? v) := by
      rw [List.filterMap_cons]
      cases c.change? v <;> rfl
    rw [hcons, Store.applyAll_append, hc.store v (hlater.trans hv)]
    have hrest := hstore v hv
    rw [hc.later.policy] at hrest
    exact hrest

section Refined
variable {p : Policy} {ts : List (Clue σ κ)} {s : Script κ} {types : List Qualified}

/-- A rule that ends with types has made the changes of its calls, and its types are the answers
about its targets, all under the same names. -/
theorem exists_names_of_refined (h : (run s (new p ts)).verdict = .refined types) :
    ∃ v : Workspace σ κ, v.targets = ts ∧
      Store.applyAll p ((calls s (new p ts)).filterMap (Call.change? v)) {} =
        (.ok (), (run s (new p ts)).store) ∧
      ∀ (i : Nat) (c : Clue σ κ), ts[i]? = some c → ∃ q, types[i]? = some q ∧
        (run s (new p ts)).store.instantiate (v.named (some i) c.type) = .ok q := by
  have hf := failure_of_refined h
  obtain ⟨types', v, hts, -, he, hlen, hall⟩ := ((new_sound p ts).run s).exists_types hf
  simp only [verdict, hf, hts] at h
  cases h
  rw [targets_run_new] at hlen hall
  refine ⟨v, he.targets.trans (targets_run_new p s ts), ?_, ?_⟩
  · rw [run_eq_serveAll] at hf he ⊢
    exact ((new_sound p ts).applyAll_changes hf).2 v he.later
  · intro i c hc
    have hi : i < types.length := hlen ▸ (List.getElem?_eq_some_iff.1 hc).1
    have hq := List.getElem?_eq_getElem hi
    exact ⟨_, hq, (hall i c _ hc hq).2⟩

/-- Clues that a rule unifies come out with one and the same type. Clues that it unifies with types
of its own come out with instances of these, all by one substitution, and with those of their
constraints that concern the instance. -/
theorem unified_types_eq (h : (run s (new p ts)).verdict = .refined types) :
    (∀ i j, .unifyClues i j ∈ calls s (new p ts) →
      ∃ q, types[i]? = some q ∧ types[j]? = some q) ∧
    ∃ θ : Substitution, ∀ (T : Qualified) (i : Nat), .unifyType T i ∈ calls s (new p ts) →
      ∃ q, types[i]? = some q ∧ q.term = T.term.subst θ ∧
        ∀ d ∈ T.constraints, d.subst θ ∈ q.constraints ↔
          ∃ v ∈ (d.subst θ).vars, v ∈ q.term.vars := by
  have hw := (new_sound p ts).run s
  have hf := hw.intact (failure_of_refined h)
  have hvalid := valid_of_refined h
  obtain ⟨v, hv, hstore, hall⟩ := exists_names_of_refined h
  -- two types that a call unifies have the same answer
  have hsame {call : Call κ} {a b : Qualified} (hm : call ∈ calls s (new p ts))
      (hc : call.change? v = some (.types a b)) :
      (run s (new p ts)).store.instantiate a = (run s (new p ts)).store.instantiate b := by
    apply Store.instantiate_eq_of_applyAll hstore _ hf
    exact List.mem_filterMap.2 ⟨call, hm, hc⟩
  constructor
  · intro i j hm
    obtain ⟨hi, hj⟩ := hvalid _ hm
    obtain ⟨c, hc⟩ : ∃ c, ts[i]? = some c := ⟨_, List.getElem?_eq_getElem hi⟩
    obtain ⟨d, hd⟩ : ∃ d, ts[j]? = some d := ⟨_, List.getElem?_eq_getElem hj⟩
    obtain ⟨q, hq, hqi⟩ := hall i c hc
    obtain ⟨r, hr, hrj⟩ := hall j d hd
    have he := hsame hm (by rw [Call.change?, hv, hc, Option.bind_some, hd, Option.map_some])
    rw [hqi, hrj] at he
    cases he
    exact ⟨q, hq, hr⟩
  · refine ⟨fun x => (run s (new p ts)).store.bindings.solution ((v.scopeAt none).resolved x), ?_⟩
    intro T i hm
    obtain ⟨c, hc⟩ : ∃ c, ts[i]? = some c := ⟨_, List.getElem?_eq_getElem (hvalid _ hm)⟩
    obtain ⟨q, hq, hqi⟩ := hall i c hc
    have he := hsame hm (by rw [Call.change?, hv, hc, Option.map_some])
    exact ⟨q, hq, Store.instantiate_rename hw.store.acyclic (he.trans hqi)⟩

end Refined

/-- The constraint of the first clue and one of the rule have keys that match, and are merged. Both
clues come out with the result, and with `Show e` under the name of `a`; `Show z` concerns nobody.
-/
theorem unified_types_eq_merged_keys :
    let shows := Term.app (.atom "Show")
    let repr := fun t u : Term => Term.app (.app (.atom "RepresentedAs") t) u
    let list := Term.app (.atom "List")
    let T : Qualified := .of [shows (.var "e"), shows (.var "z"), repr (.var "e") (.atom "Bit64")]
      (list (.var "e"))
    let clue := fun (n : Nat) (q : Qualified) => Clue.mk ⟨"Hole", n, n⟩ () () [] ∅ q []
    let ts := [clue 1 (.of [repr (.var "a") (.var "r")] (list (.var "a"))), clue 2 .mostGeneral]
    let s : Script Unit := .satisfied (.unifyClues 0 1 (.unifyType T 1 .done))
    let q : Qualified := .of [shows (.var "a_1"), repr (.var "a_1") (.atom "Bit64")]
      (list (.var "a_1"))
    let p := Policy.ofFinders [.head "RepresentedAs" 2 1]
    (run s (new p ts)).verdict = .refined [q, q] ∧ .unifyClues 0 1 ∈ calls s (new p ts) ∧
      .unifyType T 1 ∈ calls s (new p ts) ∧ (∃ x, [q, q][0]? = some x ∧ [q, q][1]? = some x) ∧
      ∃ θ : Substitution, q.term = T.term.subst θ ∧ (shows (.var "e")).subst θ ∈ q.constraints := by
  intro shows repr list T clue ts s q p
  have hv : (run s (new p ts)).verdict = .refined [q, q] := by decide
  have hclues : .unifyClues 0 1 ∈ calls s (new p ts) := .tail _ (.head _)
  have htype : .unifyType T 1 ∈ calls s (new p ts) := .tail _ (.tail _ (.head _))
  obtain ⟨hsame, θ, hθ⟩ := unified_types_eq hv
  obtain ⟨_, hx, hterm, hcs⟩ := hθ T 1 htype
  cases hx
  have he : θ "e" = .var "a_1" := (Term.app.inj hterm).2.symm
  refine ⟨hv, hclues, htype, hsame 0 1 hclues, θ, hterm, ?_⟩
  rw [hcs (shows (.var "e")) (by decide)]
  refine ⟨"a_1", ?_, by decide⟩
  simp [shows, he]

end Workspace
end TypeClues
