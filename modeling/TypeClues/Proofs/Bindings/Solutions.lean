import TypeClues.Proofs.Bindings.Acyclic

/-!
# Solutions of bindings

A substitution solves bindings when it makes every bound variable equal to its term. Acyclic
bindings have a solution through which every other one factors: the full replacement of bound
variables.
-/
namespace TypeClues.Bindings

/-- The substitution makes every bound variable equal to what it is bound to. -/
def Solves (θ : Substitution) (B : Bindings) : Prop :=
  ∀ v t, B.get? v = some t → θ v = t.subst θ

def solution (B : Bindings) : Substitution := fun v => B.substitute (.var v)

variable {B : Bindings} {θ : Substitution}

theorem solves_nil (θ : Substitution) : Solves θ [] := fun v t h => by simp at h

theorem solves_bind {v : String} {t : Term} (hv : B.get? v = none) :
    Solves θ (B.bind v t) ↔ Solves θ B ∧ θ v = t.subst θ := by
  constructor
  · intro h
    refine ⟨fun w u hu => h w u ?_, h v t (by rw [get?_bind, if_pos rfl])⟩
    rw [get?_bind, if_neg fun hw => ?_, hu]
    rw [hw, hv] at hu
    cases hu
  · rintro ⟨h, ht⟩ w u hu
    rw [get?_bind] at hu
    split at hu
    · next hw =>
      cases hu
      rw [hw, ht]
    · exact h w u hu

theorem Solves.subst_headWithin (h : Solves θ B) (n : Nat) (t : Term) :
    (B.headWithin n t).subst θ = t.subst θ := by
  induction n generalizing t with
  | zero => rfl
  | succ n ih =>
    cases t with
    | atom a => rfl
    | app f x => rfl
    | var v =>
      rw [headWithin]
      cases hu : B.get? v with
      | none => rfl
      | some u => rw [ih, Term.subst_var, h v u hu]

theorem Solves.subst_head (h : Solves θ B) (t : Term) : (B.head t).subst θ = t.subst θ :=
  h.subst_headWithin _ t

theorem Solves.subst_substituteWithin (h : Solves θ B) (n : Nat) (t : Term) :
    (B.substituteWithin n t).subst θ = t.subst θ := by
  induction n generalizing t with
  | zero => rfl
  | succ n ih =>
    rw [substituteWithin, Term.subst_subst]
    refine Term.subst_congr fun v _ => ?_
    cases hu : B.get? v with
    | none => rfl
    | some u => rw [ih, h v u hu]

/-- Every solution factors through the replacement of bound variables. -/
theorem Solves.subst_substitute (h : Solves θ B) (t : Term) :
    (B.substitute t).subst θ = t.subst θ := h.subst_substituteWithin _ t

theorem solution_of_get? (h : B.Acyclic) {v : String} {t : Term} (hv : B.get? v = some t) :
    B.solution v = B.substitute t := by
  rw [solution, substitute_eq h, Term.subst_var, hv]

theorem solution_of_free (h : B.Acyclic) {v : String} (hv : B.get? v = none) :
    B.solution v = .var v := by
  rw [solution, substitute_eq h, Term.subst_var, hv]

theorem subst_solution (h : B.Acyclic) (t : Term) : t.subst B.solution = B.substitute t := by
  rw [substitute_eq h t]
  refine Term.subst_congr fun v _ => ?_
  cases hv : B.get? v with
  | none => exact solution_of_free h hv
  | some u => exact solution_of_get? h hv

theorem solves_solution (h : B.Acyclic) : Solves B.solution B := by
  intro v t hv
  rw [solution_of_get? h hv, subst_solution h]

/-- Terms become equal by replacement exactly when every solution makes them equal. -/
theorem substitute_eq_substitute_iff (h : B.Acyclic) {t u : Term} :
    B.substitute t = B.substitute u ↔ ∀ θ, Solves θ B → t.subst θ = u.subst θ := by
  constructor
  · intro he θ hθ
    rw [← hθ.subst_substitute t, he, hθ.subst_substitute u]
  · intro he
    rw [← subst_solution h, ← subst_solution h]
    exact he _ (solves_solution h)

theorem Solves.size_le_of_reaches (h : Solves θ B) {v w : String} (hr : B.Reaches v w) :
    (θ w).size ≤ (θ v).size := by
  induction hr with
  | refl => exact Nat.le_refl _
  | tail _ hm ih =>
    obtain ⟨t, ht, hw⟩ := hm
    have hs := Term.size_le_of_mem_vars hw θ
    rw [← h _ t ht] at hs
    exact Nat.le_trans hs ih

/-- No solution makes a variable equal to an application that it stands behind. -/
theorem Solves.ne_of_reaches (h : Solves θ B) {v w : String} {f x : Term}
    (hw : w ∈ (Term.app f x).vars) (hr : B.Reaches w v) : θ v ≠ (Term.app f x).subst θ := by
  intro he
  have hle := h.size_le_of_reaches hr
  have hlt := Term.size_lt_of_mem_vars hw θ
  rw [← he] at hlt
  omega

end TypeClues.Bindings
