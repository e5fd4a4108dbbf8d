import TypeClues.Term.Basic

/-!
# The order of terms

Atoms come before applications and applications before variables. Names are ordered by code
point, applications by function and then by argument. The order is total, and terms that compare
as equal are equal.
-/
namespace TypeClues.Term

protected def compare : Term → Term → Ordering
  | .atom a, .atom b => Ord.compare a b
  | .atom _, _ => .lt
  | .app _ _, .atom _ => .gt
  | .app f x, .app g y => (f.compare g).then (x.compare y)
  | .app _ _, .var _ => .lt
  | .var a, .var b => Ord.compare a b
  | .var _, _ => .gt

instance : Ord Term := ⟨Term.compare⟩

theorem compare_eq (t u : Term) : Ord.compare t u = t.compare u := rfl

instance : Std.OrientedOrd Term where
  eq_swap {t u} := by
    simp only [compare_eq]
    induction t generalizing u with
    | atom a =>
      cases u with
      | atom b =>
        rw [Term.compare, Term.compare]
        exact Std.OrientedCmp.eq_swap
      | app g y => rfl
      | var v => rfl
    | var v =>
      cases u with
      | atom b => rfl
      | app g y => rfl
      | var w =>
        rw [Term.compare, Term.compare]
        exact Std.OrientedCmp.eq_swap
    | app f x hf hx =>
      cases u with
      | app g y => rw [Term.compare, Term.compare, Ordering.swap_then, hf, hx]
      | atom a => rfl
      | var v => rfl

private theorem compare_eq_eq {t u : Term} : t.compare u = .eq → t = u := by
  induction t generalizing u with
  | atom a => cases u <;> simp [Term.compare]
  | var v => cases u <;> simp [Term.compare]
  | app f x hf hx =>
    cases u <;> simp only [Term.compare, reduceCtorEq, false_implies]
    rw [Ordering.then_eq_eq]
    exact fun h => by rw [hf h.1, hx h.2]

private theorem compare_rfl (t : Term) : t.compare t = .eq := by
  induction t with
  | atom a => simp [Term.compare]
  | var v => simp [Term.compare]
  | app f x hf hx => simp [Term.compare, hf, hx]

instance : Std.LawfulEqOrd Term where
  compare_self {t} := compare_rfl t
  eq_of_compare := compare_eq_eq

private theorem lt_trans {t u w : Term} :
    t.compare u = .lt → u.compare w = .lt → t.compare w = .lt := by
  induction t generalizing u w with
  | atom a =>
    cases u <;> cases w <;> simp only [Term.compare, reduceCtorEq, implies_true, false_implies]
    exact Std.TransCmp.lt_trans
  | var v =>
    cases u <;> cases w <;> simp only [Term.compare, reduceCtorEq, implies_true, false_implies]
    exact Std.TransCmp.lt_trans
  | app f x hf hx =>
    cases u <;> cases w <;> simp only [Term.compare, reduceCtorEq, implies_true, false_implies]
    rename_i g y h z
    simp only [Ordering.then_eq_lt]
    rintro (h₁ | ⟨h₁, h₂⟩) (h₃ | ⟨h₃, h₄⟩)
    · exact .inl (hf h₁ h₃)
    · exact .inl (compare_eq_eq h₃ ▸ h₁)
    · exact .inl (compare_eq_eq h₁ ▸ h₃)
    · exact .inr ⟨compare_eq_eq h₁ ▸ h₃, hx h₂ h₄⟩

instance : Std.TransOrd Term where
  isLE_trans {t u w} h₁ h₂ := by
    simp only [compare_eq, Ordering.isLE_iff_eq_lt_or_eq_eq] at *
    rcases h₁ with h₁ | h₁ <;> rcases h₂ with h₂ | h₂
    · exact .inl (lt_trans h₁ h₂)
    · exact .inl (compare_eq_eq h₂ ▸ h₁)
    · exact .inl (compare_eq_eq h₁ ▸ h₂)
    · exact .inr (compare_eq_eq h₁ ▸ h₂)

end TypeClues.Term
