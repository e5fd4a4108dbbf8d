import TypeClues.Proofs.Store.Reachable

/-!
# Merging a constraint with the live ones

What becomes of the live constraints when a new one is added. Each either stays, and then no
solution makes its key equal to the new one, or it falls together with the new constraint, and then
the two are equal under the bindings. A constraint that cannot be added leaves the live ones as they
were.
-/
namespace TypeClues

theorem Bindings.Extends.substitute_eq {B B' : Bindings} (h : B.Extends B') (hB : B.Acyclic)
    (hB' : B'.Acyclic) {t u : Term} (he : B.substitute t = B.substitute u) :
    B'.substitute t = B'.substitute u := by
  rw [substitute_eq_substitute_iff hB] at he
  rw [substitute_eq_substitute_iff hB']
  exact fun θ hθ => he θ (h.solves hθ)

namespace Store

/-- No solution makes the keys of two constraints equal. -/
def Apart (p : Policy) (B : Bindings) (c d : Term) : Prop :=
  ∀ k l, p.key? c = some k → p.key? d = some l → ∀ θ, Bindings.Solves θ B → k.subst θ ≠ l.subst θ

theorem Apart.symm {p : Policy} {B : Bindings} {c d : Term} (h : Apart p B c d) :
    Apart p B d c := fun k l hk hl θ hθ he => h l k hl hk θ hθ he.symm

theorem Apart.extend {p : Policy} {B B' : Bindings} {c d : Term} (h : Apart p B c d)
    (he : B.Extends B') : Apart p B' c d := fun k l hk hl θ hθ => h k l hk hl θ (he.solves hθ)

/-- What merging a constraint with live ones ends with. -/
structure Merged (p : Policy) (c : Term) (ds : List Term) (B : Bindings) (kept : List Term) :
    Prop where
  sublist : kept.Sublist ds
  apart : ∀ d ∈ kept, Apart p B c d
  subsumed : ∀ d ∈ ds, d ∈ kept ∨ B.substitute d = B.substitute c

variable {p : Policy} {c : Term} {B B' : Bindings} {kept : List Term}

theorem extends_of_merge {ds : List Term} (hB : B.Acyclic) (h : merge p c B ds = .ok (B', kept)) :
    B'.Acyclic ∧ B.Extends B' := by
  have hg := merge_grows p c hB ds
  rw [h] at hg
  exact hg

/-- Merging with one live constraint more: it stays, or it becomes equal to the new one. -/
theorem merge_cons_ok {d : Term} {ds : List Term} (hB : B.Acyclic)
    (h : merge p c B (d :: ds) = .ok (B', kept)) :
    (∃ rest, kept = d :: rest ∧ merge p c B ds = .ok (B', rest) ∧ Apart p B c d) ∨
    (∃ B₁, B₁.Acyclic ∧ B₁.substitute d = B₁.substitute c ∧
      merge p c B₁ ds = .ok (B', kept)) := by
  have keep (h : (merge p c B ds).map (fun r => (r.1, d :: r.2)) = .ok (B', kept))
      (ha : Apart p B c d) :
      ∃ rest, kept = d :: rest ∧ merge p c B ds = .ok (B', rest) ∧ Apart p B c d := by
    cases hm : merge p c B ds with
    | error clash =>
      rw [hm] at h
      cases h
    | ok r =>
      rw [hm] at h
      cases h
      exact ⟨_, rfl, rfl, ha⟩
  rw [merge] at h
  split at h
  · next k l hk hl =>
    have hkl := Bindings.unify_correct hB k l
    split at h
    · next clash hu =>
      rw [hu] at hkl
      apply Or.inl
      apply keep h
      intro k' l' hk' hl'
      rw [hk] at hk'
      rw [hl] at hl'
      cases hk'
      cases hl'
      exact hkl.2
    · next B₁ hu =>
      rw [hu] at hkl
      have hcd := Bindings.unify_correct hkl.1.acyclic c d
      split at h
      · next B₂ hu' =>
        rw [hu'] at hcd
        apply Or.inr
        refine ⟨B₂, hcd.1.acyclic, ?_, h⟩
        rw [Bindings.substitute_eq_substitute_iff hcd.1.acyclic]
        exact fun θ hθ => ((hcd.2 θ).1 hθ).2.symm
      · cases h
  · next hn =>
    split at h
    · next he => exact .inr ⟨B, hB, he, h⟩
    · exact .inl (keep h fun k l hk hl => absurd hl (hn k l hk))

theorem merge_ok {ds : List Term} (hB : B.Acyclic) (h : merge p c B ds = .ok (B', kept)) :
    Merged p c ds B' kept := by
  induction ds generalizing B kept with
  | nil =>
    cases h
    exact ⟨.slnil, by simp, by simp⟩
  | cons d ds ih =>
    rcases merge_cons_ok hB h with ⟨rest, rfl, hm, ha⟩ | ⟨B₁, hB₁, he, hm⟩
    · have hg := extends_of_merge hB hm
      have hi := ih hB hm
      refine ⟨hi.sublist.cons_cons d, ?_, ?_⟩
      · intro x hx
        rcases List.mem_cons.1 hx with rfl | hx
        · exact ha.extend hg.2
        · exact hi.apart x hx
      · intro x hx
        rcases List.mem_cons.1 hx with rfl | hx
        · exact .inl (by simp)
        · exact (hi.subsumed x hx).imp_left (List.mem_cons_of_mem d)
    · have hg := extends_of_merge hB₁ hm
      have hi := ih hB₁ hm
      refine ⟨hi.sublist.cons d, hi.apart, ?_⟩
      intro x hx
      rcases List.mem_cons.1 hx with rfl | hx
      · exact .inr (hg.2.substitute_eq hB₁ hg.1 he)
      · exact hi.subsumed x hx

theorem constrain_cases {s : Store} (hs : s.bindings.Acyclic) (c : Term) :
    (∃ kept, (s.constrain p c).2.constraints = kept ++ [c] ∧
      Merged p c s.constraints (s.constrain p c).2.bindings kept) ∨
    ((s.constrain p c).1 ≠ .ok () ∧ (s.constrain p c).2.constraints = s.constraints) := by
  rw [constrain, guarded]
  cases hf : s.failed with
  | true => exact .inr ⟨by simp, rfl⟩
  | false =>
    cases hm : merge p c s.bindings s.constraints with
    | ok r => exact .inl ⟨r.2, rfl, merge_ok hs hm⟩
    | error clash => exact .inr ⟨by simp, rfl⟩

@[simp] theorem constraints_unifyTerms (s : Store) (t u : Term) :
    (s.unifyTerms t u).2.constraints = s.constraints := by
  rw [unifyTerms, guarded]
  split
  · rfl
  · split <;> rfl

end Store
end TypeClues
