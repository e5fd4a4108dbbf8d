import TypeClues.Proofs.Store.Reachable
import TypeClues.Proofs.Variants

/-!
# The order of equations

Unifying pairs of terms one after the other leaves exactly the substitutions that solve all of
them, and clashes only when there are none. So neither the order of the pairs nor the sides of a
pair decide whether it succeeds. The bindings may differ, but each is a solution of the other's
equations, so what they make of a term are instances of each other: the same term up to the names
of variables.
-/
namespace TypeClues.Store

def unifyEach : List (Term × Term) → Store → Outcome
  | [], s => (.ok (), s)
  | e :: es, s => (s.unifyTerms e.1 e.2).andThen (unifyEach es)

def Equates (θ : Substitution) (es : List (Term × Term)) : Prop :=
  ∀ e ∈ es, e.1.subst θ = e.2.subst θ

theorem equates_cons {θ : Substitution} {e : Term × Term} {es : List (Term × Term)} :
    Equates θ (e :: es) ↔ e.1.subst θ = e.2.subst θ ∧ Equates θ es := List.forall_mem_cons

theorem equates_singleton {θ : Substitution} {t u : Term} :
    Equates θ [(t, u)] ↔ t.subst θ = u.subst θ := List.forall_mem_singleton

/-- The second store has not failed and knows the equations besides what the first one knew. -/
structure Learns (es : List (Term × Term)) (s s' : Store) : Prop where
  acyclic : s'.bindings.Acyclic
  intact : s'.failed = false
  solves : ∀ θ, Bindings.Solves θ s'.bindings ↔ Bindings.Solves θ s.bindings ∧ Equates θ es

section Cases
variable {s : Store} (hs : s.bindings.Acyclic) (hf : s.failed = false)
include hs hf

theorem unifyTerms_cases (t u : Term) :
    (∃ s', s.unifyTerms t u = (.ok (), s') ∧ Learns [(t, u)] s s') ∨
      (s.unifyTerms t u).1 ≠ .ok () ∧
        ∀ θ, Bindings.Solves θ s.bindings → t.subst θ ≠ u.subst θ := by
  have hc := Bindings.unify_correct hs t u
  rw [unifyTerms, guarded, hf]
  cases h : s.bindings.unify t u with
  | ok B =>
    rw [h] at hc
    apply Or.inl
    refine ⟨_, rfl, hc.1.acyclic, hf, ?_⟩
    intro θ
    rw [hc.2 θ, equates_singleton]
  | error c =>
    rw [h] at hc
    exact .inr ⟨by simp, hc.2⟩

theorem unifyEach_cases (es : List (Term × Term)) :
    (∃ s', unifyEach es s = (.ok (), s') ∧ Learns es s s') ∨
      (unifyEach es s).1 ≠ .ok () ∧ ∀ θ, Bindings.Solves θ s.bindings → ¬ Equates θ es := by
  induction es generalizing s with
  | nil =>
    apply Or.inl
    refine ⟨s, rfl, hs, hf, ?_⟩
    intro θ
    simp [Equates]
  | cons e es ih =>
    rcases unifyTerms_cases hs hf e.1 e.2 with ⟨s₁, h₁, hl⟩ | ⟨h₁, hno⟩
    · have hstep : unifyEach (e :: es) s = unifyEach es s₁ := by
        rw [unifyEach, h₁]
        rfl
      have hsolves : ∀ θ, Bindings.Solves θ s₁.bindings ∧ Equates θ es ↔
          Bindings.Solves θ s.bindings ∧ Equates θ (e :: es) := by
        intro θ
        rw [hl.solves θ, equates_singleton, equates_cons, and_assoc]
      rw [hstep]
      rcases ih hl.acyclic hl.intact with ⟨s', h', hl'⟩ | ⟨h', hno⟩
      · apply Or.inl
        refine ⟨s', h', hl'.acyclic, hl'.intact, ?_⟩
        intro θ
        rw [hl'.solves θ, hsolves θ]
      · apply Or.inr
        refine ⟨h', ?_⟩
        intro θ hθ he
        obtain ⟨hθ, he⟩ := (hsolves θ).2 ⟨hθ, he⟩
        exact hno θ hθ he
    · apply Or.inr
      constructor
      · rw [unifyEach]
        cases hr : s.unifyTerms e.1 e.2 with
        | mk r s' =>
          rw [hr] at h₁
          cases r with
          | ok _ => exact absurd rfl h₁
          | error x => simp [Outcome.andThen]
      · intro θ hθ he
        exact hno θ hθ (equates_cons.1 he).1

end Cases

theorem unifyEach_eq_ok_iff (es : List (Term × Term)) :
    (unifyEach es {}).1 = .ok () ↔ ∃ θ, Equates θ es := by
  rcases unifyEach_cases (s := {}) Bindings.acyclic_nil rfl es with ⟨s, h, hl⟩ | ⟨h, hno⟩
  · have hsol := (hl.solves _).1 (Bindings.solves_solution hl.acyclic)
    rw [h]
    exact iff_of_true rfl ⟨_, hsol.2⟩
  · apply iff_of_false h
    rintro ⟨θ, hθ⟩
    exact hno θ (Bindings.solves_nil θ) hθ

theorem learns_of_unifyEach {es : List (Term × Term)} (h : (unifyEach es {}).1 = .ok ()) :
    Learns es {} (unifyEach es {}).2 := by
  rcases unifyEach_cases (s := {}) Bindings.acyclic_nil rfl es with ⟨s, hs, hl⟩ | ⟨hne, -⟩
  · rw [hs]
    exact hl
  · exact absurd h hne

/-- What one store makes of a term is an instance of what another one makes of it whose equations
it solves. -/
theorem Learns.covers {es fs : List (Term × Term)} {s s' : Store} (h : Learns es {} s)
    (h' : Learns fs {} s') (hef : ∀ θ, Equates θ fs → Equates θ es) (t : Term) :
    (s.bindings.substitute t).Covers (s'.bindings.substitute t) := by
  have hsol := (h'.solves _).1 (Bindings.solves_solution h'.acyclic)
  have hs := (h.solves _).2 ⟨Bindings.solves_nil _, hef _ hsol.2⟩
  refine ⟨s'.bindings.solution, ?_⟩
  rw [hs.subst_substitute, Bindings.subst_solution h'.acyclic]

/-- The same pairs in any order, each with its sides in either order. -/
def Rearranged (es fs : List (Term × Term)) : Prop :=
  ∃ ds, es.Perm ds ∧ List.Forall₂ (fun d f => f = d ∨ f = d.swap) ds fs

theorem Rearranged.equates_iff {es fs : List (Term × Term)} (h : Rearranged es fs)
    (θ : Substitution) : Equates θ es ↔ Equates θ fs := by
  obtain ⟨ds, hp, hd⟩ := h
  have hperm : Equates θ es ↔ Equates θ ds := by
    simp only [Equates, hp.mem_iff]
  rw [hperm]
  clear hp hperm
  induction hd with
  | nil => rfl
  | cons hdf _ ih =>
    rw [equates_cons, equates_cons]
    apply and_congr _ ih
    rcases hdf with rfl | rfl
    · rfl
    · rw [Prod.fst_swap, Prod.snd_swap, eq_comm]

/-- Neither the order of equations nor the order of their sides makes a difference: all of them
unify in one order exactly if they do in another, and then every term comes out the same up to the
names of variables. -/
theorem unifyEach_rearranged {es fs : List (Term × Term)} (h : Rearranged es fs) :
    ((unifyEach es {}).1 = .ok () ↔ (unifyEach fs {}).1 = .ok ()) ∧
      ((unifyEach es {}).1 = .ok () → ∀ t, ∃ u v, (unifyEach es {}).2.substitute t = .ok u ∧
        (unifyEach fs {}).2.substitute t = .ok v ∧ u.Equivalent v) := by
  have hiff : (unifyEach es {}).1 = .ok () ↔ (unifyEach fs {}).1 = .ok () := by
    rw [unifyEach_eq_ok_iff, unifyEach_eq_ok_iff]
    exact exists_congr h.equates_iff
  refine ⟨hiff, ?_⟩
  intro hes t
  have hl := learns_of_unifyEach hes
  have hl' := learns_of_unifyEach (hiff.1 hes)
  refine ⟨_, _, ?_, ?_, Term.equivalent_iff_covers.2
    ⟨hl.covers hl' (fun θ => (h.equates_iff θ).2) t, hl'.covers hl (fun θ => (h.equates_iff θ).1) t⟩⟩
  · rw [substitute, answer, hl.intact]
    rfl
  · rw [substitute, answer, hl'.intact]
    rfl

/-- The variable that is left over is another one. -/
theorem unifyEach_rearranged_chain :
    let list := Term.app (.atom "List")
    let pair := fun t u : Term => Term.app (.app (.atom "Pair") t) u
    let es := [(.var "a", .var "b"), (list (.var "b"), list (.var "c"))]
    let fs := [(list (.var "c"), list (.var "b")), (.var "b", .var "a")]
    Rearranged es fs ∧ (unifyEach es {}).1 = .ok () ∧ ∃ u v,
      (unifyEach es {}).2.substitute (pair (.var "a") (.var "c")) = .ok u ∧
      (unifyEach fs {}).2.substitute (pair (.var "a") (.var "c")) = .ok v ∧ u.Equivalent v := by
  intro list pair es fs
  have h : Rearranged es fs :=
    ⟨_, .swap _ _ _, .cons (.inr rfl) (.cons (.inr rfl) .nil)⟩
  have hes : (unifyEach es {}).1 = .ok () := by decide
  exact ⟨h, hes, (unifyEach_rearranged h).2 hes _⟩

end TypeClues.Store
