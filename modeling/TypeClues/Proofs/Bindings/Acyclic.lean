import Mathlib.Logic.Relation
import TypeClues.Proofs.Substitution
import TypeClues.Store.Bindings

/-!
# Acyclic bindings

Bindings are acyclic when the variables can be ranked so that what a variable is bound to mentions
smaller ranks only. No chain of bindings is then longer than their number, so the functions that
follow bindings see all there is to see: each of them satisfies the equation of the recursion that
it cuts off. Binding a free variable to a term from which it cannot be reached keeps bindings
acyclic.
-/
namespace TypeClues.Bindings

/-- The variable `w` stands in what `v` is bound to. -/
def Mentions (B : Bindings) (v w : String) : Prop := ∃ t, B.get? v = some t ∧ w ∈ t.vars

/-- The variable `w` is `v` or found behind it. -/
def Reaches (B : Bindings) : String → String → Prop := Relation.ReflTransGen B.Mentions

/-- A ranking along which every binding descends. -/
def Ranks (B : Bindings) (r : String → Nat) : Prop := ∀ v w, B.Mentions v w → r w < r v

/-- No variable depends on itself. -/
def Acyclic (B : Bindings) : Prop := ∃ r, B.Ranks r

theorem get?_bind (B : Bindings) (v w : String) (t : Term) :
    (B.bind v t).get? w = if w = v then some t else B.get? w := by
  simp only [get?, bind, List.lookup_cons]
  by_cases h : w = v
  · simp [h]
  · simp [h, beq_eq_false_iff_ne.2 h]

@[simp] theorem get?_nil (v : String) : get? [] v = none := rfl

theorem acyclic_nil : Acyclic [] := ⟨fun _ => 0, fun _ _ ⟨_, h, _⟩ => by simp at h⟩

theorem mem_of_get? {B : Bindings} {v : String} {t : Term} (h : B.get? v = some t) :
    (v, t) ∈ B := by
  induction B with
  | nil => simp at h
  | cons b B ih =>
    obtain ⟨w, u⟩ := b
    have hb := get?_bind B w v u
    rw [bind, h] at hb
    by_cases hw : v = w
    · rw [if_pos hw] at hb
      simp [hw, Option.some.inj hb]
    · rw [if_neg hw] at hb
      exact List.mem_cons_of_mem _ (ih hb.symm)

section Level
variable {B : Bindings} {r : String → Nat}

/-- How many bound variables there are up to the rank of `v`. -/
def level (B : Bindings) (r : String → Nat) (v : String) : Nat :=
  B.countP fun b => r b.1 ≤ r v

theorem level_le_length (B : Bindings) (r : String → Nat) (v : String) :
    B.level r v ≤ B.length := List.countP_le_length

theorem level_pos {v : String} {t : Term} (h : B.get? v = some t) : 0 < B.level r v :=
  List.countP_pos_iff.2 ⟨(v, t), mem_of_get? h, by simp⟩

private theorem countP_lt_countP {α : Type} {p q : α → Bool} {l : List α} {a : α} (ha : a ∈ l)
    (hq : q a = true) (hp : p a = false) (h : ∀ x ∈ l, p x = true → q x = true) :
    l.countP p < l.countP q := by
  induction l with
  | nil => simp at ha
  | cons b l ih =>
    have hle : l.countP p ≤ l.countP q :=
      List.countP_mono_left fun x hx => h x (List.mem_cons_of_mem b hx)
    rcases List.mem_cons.1 ha with rfl | ha
    · simp only [List.countP_cons, hp, hq]
      simp
      omega
    · have hlt := ih ha fun x hx => h x (List.mem_cons_of_mem b hx)
      have hb := h b (by simp)
      simp only [List.countP_cons]
      cases hpb : p b <;> simp_all
      split <;> omega

theorem Ranks.level (h : B.Ranks r) : B.Ranks (B.level r) := by
  intro v w hm
  have hlt := h v w hm
  obtain ⟨t, ht, -⟩ := hm
  refine countP_lt_countP (mem_of_get? ht) (by simp) (by simpa using hlt) fun b _ hb => ?_
  simp only [decide_eq_true_eq] at hb ⊢
  omega

theorem get?_eq_none_of_level {v : String} (h : B.level r v ≤ 0) : B.get? v = none := by
  cases ht : B.get? v with
  | none => rfl
  | some t =>
    have := level_pos (r := r) ht
    omega

theorem Ranks.level_le_of_get? (h : B.Ranks r) {v : String} {u : Term} (hu : B.get? v = some u)
    {n : Nat} (hv : B.level r v ≤ n + 1) : ∀ w ∈ u.vars, B.level r w ≤ n := by
  intro w hw
  have := h.level v w ⟨u, hu, hw⟩
  omega

end Level

section Recursion
variable {B : Bindings} {r : String → Nat}

/-! As many steps as the levels of the variables at hand are enough. -/

private theorem substituteWithin_succ (h : B.Ranks r) {n : Nat} {t : Term}
    (hn : ∀ v ∈ t.vars, B.level r v ≤ n) :
    B.substituteWithin (n + 1) t = B.substituteWithin n t := by
  induction n generalizing t with
  | zero =>
    refine (Term.subst_congr fun v hv => ?_).trans (Term.subst_id t)
    rw [get?_eq_none_of_level (hn v hv)]
  | succ n ih =>
    refine Term.subst_congr fun v hv => ?_
    cases hu : B.get? v with
    | none => rfl
    | some u => exact ih (h.level_le_of_get? hu (hn v hv))

private theorem get?_headWithin (h : B.Ranks r) {n : Nat} {t : Term} {w : String}
    (hn : ∀ v ∈ t.vars, B.level r v ≤ n) (hw : B.headWithin n t = .var w) : B.get? w = none := by
  induction n generalizing t with
  | zero =>
    obtain rfl : t = .var w := hw
    exact get?_eq_none_of_level (hn w (by simp))
  | succ n ih =>
    cases t with
    | atom a => cases hw
    | app f x => cases hw
    | var v =>
      rw [headWithin] at hw
      cases hu : B.get? v with
      | none =>
        rw [hu] at hw
        obtain rfl : v = w := Term.var.inj hw
        exact hu
      | some u =>
        rw [hu] at hw
        exact ih (h.level_le_of_get? hu (hn v (by simp))) hw

theorem reaches_iff_of_get? {v x : String} :
    B.Reaches v x ↔ v = x ∨ ∃ u, B.get? v = some u ∧ ∃ w ∈ u.vars, B.Reaches w x := by
  rw [Reaches, Relation.ReflTransGen.cases_head_iff]
  constructor
  · rintro (h | ⟨w, ⟨u, hu, hw⟩, h⟩)
    · exact .inl h
    · exact .inr ⟨u, hu, w, hw, h⟩
  · rintro (h | ⟨u, hu, w, hw, h⟩)
    · exact .inl h
    · exact .inr ⟨w, ⟨u, hu, hw⟩, h⟩

private theorem occursWithin_iff (h : B.Ranks r) {x : String} {n : Nat} {t : Term}
    (hn : ∀ v ∈ t.vars, B.level r v ≤ n) :
    B.occursWithin x n t = true ↔ ∃ v ∈ t.vars, B.Reaches v x := by
  induction n generalizing t with
  | zero =>
    simp only [occursWithin, List.any_eq_true, decide_eq_true_eq]
    refine exists_congr fun v => and_congr_right fun hv => ?_
    rw [reaches_iff_of_get?, get?_eq_none_of_level (hn v hv)]
    simp
  | succ n ih =>
    simp only [occursWithin, List.any_eq_true, Bool.or_eq_true, decide_eq_true_eq]
    refine exists_congr fun v => and_congr_right fun hv => ?_
    rw [reaches_iff_of_get?]
    cases hu : B.get? v with
    | none => simp
    | some u =>
      have hi : B.occursWithin x n u = true ↔ ∃ w ∈ u.vars, B.Reaches w x :=
        ih (h.level_le_of_get? hu (hn v hv))
      simp [hi]

theorem substitute_eq (h : B.Acyclic) (t : Term) :
    B.substitute t = t.subst fun v =>
      match B.get? v with
      | some u => B.substitute u
      | none => .var v := by
  obtain ⟨r, hr⟩ := h
  rw [substitute, ← substituteWithin_succ hr fun v _ => level_le_length B r v]
  rfl

theorem get?_head (h : B.Acyclic) {t : Term} {w : String} (hw : B.head t = .var w) :
    B.get? w = none := by
  obtain ⟨r, hr⟩ := h
  exact get?_headWithin hr (fun v _ => level_le_length B r v) hw

theorem occurs_iff (h : B.Acyclic) {x : String} {t : Term} :
    B.occurs x t = true ↔ ∃ v ∈ t.vars, B.Reaches v x := by
  obtain ⟨r, hr⟩ := h
  exact occursWithin_iff hr fun v _ => level_le_length B r v

end Recursion

theorem isSome_occurrenceWithin? (B : Bindings) (x : String) (n : Nat) (t : Term) :
    (B.occurrenceWithin? x n t).isSome = B.occursWithin x n t := by
  induction n generalizing t with
  | zero =>
    simp only [occurrenceWithin?, occursWithin, List.isSome_findSome?]
    congr 1
    funext v
    by_cases h : v = x <;> simp [h]
  | succ n ih =>
    simp only [occurrenceWithin?, occursWithin, List.isSome_findSome?]
    congr 1
    funext v
    by_cases h : v = x
    · simp [h]
    · cases B.get? v with
      | none => simp [h]
      | some u => simp [h, ih]

theorem occurrence?_eq_none_iff {B : Bindings} (h : B.Acyclic) {x : String} {t : Term} :
    B.occurrence? x t = none ↔ ∀ v ∈ t.vars, ¬ B.Reaches v x := by
  have hs : (B.occurrence? x t).isSome = B.occurs x t := isSome_occurrenceWithin? B x _ t
  rw [← Option.not_isSome_iff_eq_none, hs, occurs_iff h]
  simp

private theorem exists_rank_bound (r : String → Nat) (l : List String) :
    ∃ k, ∀ v ∈ l, r v < k := by
  induction l with
  | nil => exact ⟨0, by simp⟩
  | cons v l ih =>
    obtain ⟨k, hk⟩ := ih
    refine ⟨max (r v + 1) k, fun w hw => ?_⟩
    rcases List.mem_cons.1 hw with rfl | hw
    · omega
    · have := hk w hw
      omega

open scoped Classical in
/-- A free variable may be bound to whatever it is not behind. All variables that lead to it move up
by more than the ranks in the new term. -/
theorem Acyclic.bind {B : Bindings} (h : B.Acyclic) {v : String} {t : Term}
    (ht : ∀ w ∈ t.vars, ¬ B.Reaches w v) : (B.bind v t).Acyclic := by
  obtain ⟨r, hr⟩ := h
  obtain ⟨k, hk⟩ := exists_rank_bound r t.vars
  refine ⟨fun w => if B.Reaches w v then r w + k else r w, fun w x hm => ?_⟩
  obtain ⟨u, hu, hx⟩ := hm
  rw [get?_bind] at hu
  by_cases hw : w = v
  · rw [if_pos hw] at hu
    cases hu
    subst hw
    have hrefl : B.Reaches w w := .refl
    have := hk x hx
    simp only [if_pos hrefl, if_neg (ht x hx)]
    omega
  · rw [if_neg hw] at hu
    have hm : B.Mentions w x := ⟨u, hu, hx⟩
    have := hr w x hm
    by_cases hxv : B.Reaches x v
    · have hwv : B.Reaches w v := .head hm hxv
      simp only [if_pos hxv, if_pos hwv]
      omega
    · simp only [if_neg hxv]
      split <;> omega

end TypeClues.Bindings
