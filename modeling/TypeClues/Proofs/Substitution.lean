import TypeClues.Term.Basic

/-!
# The algebra of substitutions

Substituting twice is substituting once, so instances of instances are instances. Only the
variables of a term matter, and a term is at least as large as anything that is put into it. An
application is larger, which is what makes an occurs check right.
-/
namespace TypeClues.Term

theorem subst_congr {θ φ : Substitution} {t : Term} (h : ∀ v ∈ t.vars, θ v = φ v) :
    t.subst θ = t.subst φ := by
  induction t with
  | atom a => rfl
  | var v => exact h v (by simp)
  | app f x hf hx =>
    rw [subst_app, subst_app, hf fun v hv => h v (by simp [hv]), hx fun v hv => h v (by simp [hv])]

@[simp] theorem subst_id (t : Term) : t.subst .var = t := by
  induction t with
  | atom a => rfl
  | var v => rfl
  | app f x hf hx => rw [subst_app, hf, hx]

theorem subst_subst (θ φ : Substitution) (t : Term) :
    (t.subst θ).subst φ = t.subst fun v => (θ v).subst φ := by
  induction t with
  | atom a => rfl
  | var v => rfl
  | app f x hf hx => simp only [subst_app, hf, hx]

theorem subst_rename (f : String → String) (θ : Substitution) (t : Term) :
    (t.rename f).subst θ = t.subst fun v => θ (f v) := subst_subst _ _ t

/-- The second term is an instance of the first. -/
def Covers (t u : Term) : Prop := ∃ θ : Substitution, u = t.subst θ

theorem Covers.refl (t : Term) : t.Covers t := ⟨.var, (subst_id t).symm⟩

theorem Covers.trans {t u v : Term} (h : t.Covers u) (h' : u.Covers v) : t.Covers v := by
  obtain ⟨θ, rfl⟩ := h
  obtain ⟨φ, rfl⟩ := h'
  exact ⟨_, subst_subst θ φ t⟩

theorem size_le_of_mem_vars {v : String} {t : Term} (h : v ∈ t.vars) (θ : Substitution) :
    (θ v).size ≤ (t.subst θ).size := by
  induction t with
  | atom a => simp at h
  | var w =>
    obtain rfl : v = w := by simpa using h
    exact Nat.le_refl _
  | app f x hf hx =>
    simp only [subst_app, size]
    rcases List.mem_append.1 h with h | h
    · have := hf h
      omega
    · have := hx h
      omega

theorem size_lt_of_mem_vars {v : String} {f x : Term} (h : v ∈ (app f x).vars)
    (θ : Substitution) : (θ v).size < ((app f x).subst θ).size := by
  simp only [subst_app, size]
  rcases List.mem_append.1 h with h | h
  · have := size_le_of_mem_vars h θ
    omega
  · have := size_le_of_mem_vars h θ
    omega

theorem length_vars_le_size (t : Term) : t.vars.length ≤ t.size := by
  induction t with
  | atom a => simp [size]
  | var v => simp [size]
  | app f x hf hx =>
    simp only [vars_app, List.length_append, size]
    omega

end TypeClues.Term
