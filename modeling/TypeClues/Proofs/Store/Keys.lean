import TypeClues.Policy.Finder
import TypeClues.Proofs.Store.Merging

/-!
# One live constraint for each key

Keys are compared only when a constraint is added, but bindings never go away. Keys that no
solution makes equal at that moment stay apart under all later bindings, those of a failed change
included. So at any time the live constraints have keys that cannot be made equal.
-/
namespace TypeClues.Store

/-- Bindings are acyclic, and the keys of live constraints are apart. -/
structure Keyed (p : Policy) (s : Store) : Prop where
  acyclic : s.bindings.Acyclic
  apart : s.constraints.Pairwise (Apart p s.bindings)

theorem Keyed.unifyTerms {p : Policy} {s : Store} (h : s.Keyed p) (t u : Term) :
    (s.unifyTerms t u).2.Keyed p := by
  have hg := unifyTerms_grows h.acyclic t u
  constructor
  · exact hg.acyclic
  · rw [constraints_unifyTerms]
    exact h.apart.imp fun ha => ha.extend hg.keeps

theorem Keyed.constrain {p : Policy} {s : Store} (h : s.Keyed p) (c : Term) :
    (s.constrain p c).2.Keyed p := by
  have hg := constrain_grows p h.acyclic c
  have old : s.constraints.Pairwise (Apart p (s.constrain p c).2.bindings) :=
    h.apart.imp fun ha => ha.extend hg.keeps
  constructor
  · exact hg.acyclic
  · rcases constrain_cases h.acyclic c with ⟨kept, hk, hm⟩ | ⟨-, hk⟩
    · rw [hk, List.pairwise_append]
      refine ⟨old.sublist hm.sublist, List.pairwise_singleton _ c, ?_⟩
      intro d hd e he
      rw [List.mem_singleton.1 he]
      exact (hm.apart d hd).symm
    · rw [hk]
      exact old

theorem Reachable.keyed {p : Policy} {s : Store} (hs : s.Reachable p) : s.Keyed p := by
  apply hs.keeps (I := Keyed p)
  · exact ⟨Bindings.acyclic_nil, .nil⟩
  · exact fun _ _ h => ⟨h.acyclic, h.apart⟩
  · exact fun _ t u h => h.unifyTerms t u
  · exact fun _ c h => h.constrain c

/-- Live constraints at different positions have keys that no solution of the bindings makes
equal. -/
theorem keys_of_live_ne {p : Policy} {s : Store} (hs : s.Reachable p) {i j : Nat} (hij : i ≠ j)
    {d e k l : Term} (hd : s.constraints[i]? = some d) (he : s.constraints[j]? = some e)
    (hk : p.key? d = some k) (hl : p.key? e = some l) (θ : Substitution)
    (hθ : Bindings.Solves θ s.bindings) : k.subst θ ≠ l.subst θ := by
  have hp := List.pairwise_iff_getElem.1 hs.keyed.apart
  obtain ⟨hi, rfl⟩ := List.getElem?_eq_some_iff.1 hd
  obtain ⟨hj, rfl⟩ := List.getElem?_eq_some_iff.1 he
  rcases Nat.lt_or_gt_of_ne hij with hlt | hlt
  · exact hp i j hi hj hlt k l hk hl θ hθ
  · exact (hp j i hj hi hlt).symm k l hk hl θ hθ

/-- The third constraint matches the key of the first, binds `x` and then clashes with it. Under
the binding left behind the keys of the first two are still apart. -/
theorem keys_of_live_ne_after_clash :
    let repr := fun t u : Term => Term.app (.app (.atom "RepresentedAs") t) u
    let pair := fun t u : Term => Term.app (.app (.atom "Pair") t) u
    let p := Policy.ofFinders [.head "RepresentedAs" 2 1]
    let c₁ := repr (pair (.var "x") (.atom "Int")) (.atom "Bit64")
    let c₂ := repr (pair (.atom "Bool") (.atom "Text")) (.atom "Bit32")
    let c₃ := repr (pair (.atom "Bool") (.var "y")) (.atom "Bit8")
    let s := (((({} : Store).constrain p c₁).2.constrain p c₂).2.constrain p c₃).2
    s.Reachable p ∧ s.failed = true ∧ s.constraints = [c₁, c₂] ∧
      s.bindings.get? "x" = some (.atom "Bool") ∧
      ∀ θ, Bindings.Solves θ s.bindings →
        (Term.app (.atom "RepresentedAs") (pair (.var "x") (.atom "Int"))).subst θ ≠
          (Term.app (.atom "RepresentedAs") (pair (.atom "Bool") (.atom "Text"))).subst θ := by
  intro repr pair p c₁ c₂ c₃ s
  have hs : s.Reachable p := .constrain (.constrain (.constrain .empty c₁) c₂) c₃
  have hc : s.constraints = [c₁, c₂] := by decide
  refine ⟨hs, by decide, hc, by decide, ?_⟩
  apply keys_of_live_ne hs (i := 0) (j := 1) (by decide) (d := c₁) (e := c₂)
  · rw [hc]
    rfl
  · rw [hc]
    rfl
  · decide
  · decide

end TypeClues.Store
