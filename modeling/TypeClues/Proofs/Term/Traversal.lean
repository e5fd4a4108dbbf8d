import TypeClues.Proofs.Substitution
import TypeClues.Term.Cursor

/-!
# Reading and replacing variables

A cursor reads the variables of a term from a stack, replacement comes by them in a recursion. Both
meet the same occurrences in the same order: the stack, from the top down, has the occurrences that
are still ahead, and the recursion calls its function on the occurrences of the function part before
those of the argument.
-/
namespace TypeClues.Term
namespace Cursor
variable {c rest : Cursor} {v : String}

/-- The occurrences on the stack, from the top down. -/
def ahead (c : Cursor) : List String := c.stack.flatMap Term.vars

@[simp] theorem ahead_start (t : Term) : (start t).ahead = t.vars := by simp [ahead, start]

theorem ahead_app (f x : Term) (stack : List Term) :
    ahead ⟨f :: x :: stack⟩ = ahead ⟨.app f x :: stack⟩ := by simp [ahead]

theorem ahead_of_next? (h : c.next? = some (v, rest)) : c.ahead = v :: rest.ahead := by
  fun_induction next? c with
  | case1 => cases h
  | case2 a stack ih => exact ih h
  | case3 f x stack ih =>
    rw [← ahead_app]
    exact ih h
  | case4 w stack =>
    cases h
    rfl

theorem ahead_of_next?_eq_none (h : c.next? = none) : c.ahead = [] := by
  fun_induction next? c with
  | case1 => rfl
  | case2 a stack ih => exact ih h
  | case3 f x stack ih =>
    rw [← ahead_app]
    exact ih h
  | case4 w stack => cases h

theorem take_eq (n : Nat) (c : Cursor) : c.take n = c.ahead.take n := by
  induction n generalizing c with
  | zero => rfl
  | succ n ih =>
    rw [take]
    cases h : c.next? with
    | none => rw [ahead_of_next?_eq_none h, List.take_nil]
    | some p =>
      rw [ahead_of_next? h, List.take_succ_cons, ← ih]

theorem length_ahead_le_weight (c : Cursor) : c.ahead.length ≤ c.weight := by
  obtain ⟨stack⟩ := c
  induction stack with
  | nil => simp [ahead]
  | cons t stack ih =>
    have ht := t.length_vars_le_size
    simp only [ahead, weight, stackSize, List.flatMap_cons, List.length_append] at ih ⊢
    omega

theorem toList_eq (c : Cursor) : c.toList = c.ahead := by
  rw [toList, take_eq, List.take_of_length_le c.length_ahead_le_weight]

end Cursor

theorem occurrences_eq_vars (t : Term) : t.occurrences = t.vars := by
  rw [occurrences, Cursor.toList_eq, Cursor.ahead_start]

theorem isGround_iff_vars (t : Term) : t.isGround = true ↔ t.vars = [] := by
  rw [isGround, ← Cursor.ahead_start]
  cases h : (Cursor.start t).next? with
  | none => simp [Cursor.ahead_of_next?_eq_none h]
  | some p => simp [Cursor.ahead_of_next? h]

theorem vars_subst (θ : Substitution) (t : Term) :
    (t.subst θ).vars = t.vars.flatMap fun v => (θ v).vars := by
  induction t with
  | atom a => rfl
  | var v => simp
  | app f x hf hx => rw [subst_app, vars_app, hf, hx, vars_app, List.flatMap_append]

theorem substM_pure (θ : Substitution) (t : Term) :
    t.substM (fun v => (pure (θ v) : Id Term)) = t.subst θ := by
  induction t with
  | atom a => rfl
  | var v => rfl
  | app f x hf hx =>
    rw [substM, hf, hx]
    rfl

section Calls
variable {S : Type} (f : String → StateM S Term)

/-- The function with a list of its calls: the names it was called on, and its answers. -/
def recorded (v : String) : StateM (S × List (String × Term)) Term := fun p =>
  ((f v p.1).1, (f v p.1).2, p.2 ++ [(v, (f v p.1).1)])

def calls (t : Term) (s : S) : List (String × Term) := (t.substM (recorded f) (s, [])).2.2

theorem calls_atom (a : String) (s : S) : calls f (atom a) s = [] := rfl

theorem substM_app (g x : Term) (s : S) :
    (app g x).substM f s =
      (.app (g.substM f s).1 (x.substM f (g.substM f s).2).1, (x.substM f (g.substM f s).2).2) :=
  rfl

/-- Keeping a list changes neither the outcome nor the states. -/
theorem substM_recorded (t : Term) (s : S) (l : List (String × Term)) :
    t.substM (recorded f) (s, l) = ((t.substM f s).1, (t.substM f s).2, l ++ calls f t s) := by
  -- for all lists, since the argument is reached with the calls of the function part on it
  induction t generalizing s l with
  | atom a =>
    rw [calls_atom, List.append_nil]
    rfl
  | var v => rfl
  | app g x hg hx =>
    rw [calls, substM_app, substM_app, substM_app]
    simp only [hg s l, hg s [], hx, List.nil_append, List.append_assoc]

theorem calls_app (g x : Term) (s : S) :
    calls f (app g x) s = calls f g s ++ calls f x (g.substM f s).2 := by
  rw [calls, substM_app]
  simp only [substM_recorded, List.nil_append]

theorem map_fst_calls (t : Term) (s : S) : (calls f t s).map Prod.fst = t.vars := by
  induction t generalizing s with
  | atom a => rfl
  | var v => rfl
  | app g x hg hx => rw [calls_app, List.map_append, hg, hx, vars_app]

/-- The outcome has the variables of the answers, one answer after the other. -/
theorem vars_substM (t : Term) (s : S) :
    (t.substM f s).1.vars = (calls f t s).flatMap fun call => call.2.vars := by
  induction t generalizing s with
  | atom a => rfl
  | var v => simp [substM, calls, recorded]
  | app g x hg hx => rw [substM_app, vars_app, hg, hx, calls_app, List.flatMap_append]

theorem substM_of_vars_eq_nil {t : Term} (h : t.vars = []) (s : S) : t.substM f s = (t, s) := by
  induction t generalizing s with
  | atom a => rfl
  | var v => cases h
  | app g x hg hx =>
    obtain ⟨hgv, hxv⟩ := List.append_eq_nil_iff.1 h
    rw [substM_app, hg hgv, hx hxv]

end Calls

/-- A cursor gives the occurrences of variables from left to right, as many as are asked for. These
are the names on which replacement calls its function, whatever the function answers and does; a
term is ground if no call is made, and then it stays. The variables after replacement are those of
the answers. -/
theorem occurrences_replaced (t : Term) :
    t.occurrences = t.vars ∧ (∀ n, (Cursor.start t).take n = t.occurrences.take n) ∧
    (∀ (S : Type) (f : String → StateM S Term) (s : S),
      t.substM (recorded f) (s, []) = ((t.substM f s).1, (t.substM f s).2, calls f t s) ∧
      (calls f t s).map Prod.fst = t.occurrences ∧
      (t.isGround = true ↔ calls f t s = [] ∧ t.substM f s = (t, s)) ∧
      (t.substM f s).1.occurrences = (calls f t s).flatMap fun call => call.2.occurrences) ∧
    ∀ θ : Substitution, t.substM (fun v => (pure (θ v) : Id Term)) = t.subst θ ∧
      (t.subst θ).occurrences = t.occurrences.flatMap fun v => (θ v).occurrences := by
  simp only [occurrences_eq_vars]
  refine ⟨trivial, ?_, ?_, ?_⟩
  · intro n
    rw [Cursor.take_eq, Cursor.ahead_start]
  · intro S f s
    refine ⟨substM_recorded f t s [], map_fst_calls f t s, ?_, vars_substM f t s⟩
    rw [isGround_iff_vars, ← map_fst_calls f t s, List.map_eq_nil_iff]
    constructor
    · intro h
      have hv : t.vars = [] := by rw [← map_fst_calls f t s, h, List.map_nil]
      exact ⟨h, substM_of_vars_eq_nil f hv s⟩
    · exact fun h => h.1
  · exact fun θ => ⟨substM_pure θ t, vars_subst θ t⟩

end TypeClues.Term
