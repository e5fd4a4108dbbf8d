import Mathlib.Data.Finset.Card
import Mathlib.Data.List.TakeWhile
import Mathlib.Logic.Function.Iterate
import TypeClues.Orbit

/-!
# The cycle of an iteration

A value recurs in an iteration when the iteration meets it and comes back to it. The recurring
values are those of the cycle that is found, and every one of them leads to all the others. An
iteration that stays inside a finite set falls into a cycle before it has met more values than the
set has, so a search for it needs no limit.
-/
namespace TypeClues.Orbit
variable {α : Type} {f : α → α} {x y z : α}

/-- The iteration from `x` meets `y` again and again. -/
def Recurs (f : α → α) (x y : α) : Prop := (∃ k, f^[k] x = y) ∧ ∃ m, 0 < m ∧ f^[m] y = y

theorem iterate_mul_of_fixed {m : Nat} (h : f^[m] y = y) (n : Nat) : f^[m * n] y = y := by
  rw [Function.iterate_mul]
  exact Function.iterate_fixed h n

theorem Recurs.exists_ge (h : Recurs f x y) (n : Nat) : ∃ k, n ≤ k ∧ f^[k] x = y := by
  obtain ⟨⟨k, rfl⟩, m, hm, hy⟩ := h
  refine ⟨m * n + k, ?_, ?_⟩
  · have hle : n ≤ m * n := Nat.le_mul_of_pos_left n hm
    omega
  · rw [Function.iterate_add_apply]
    exact iterate_mul_of_fixed hy n

theorem Recurs.recurs_iff (h : Recurs f x y) (n : Nat) : Recurs f (f^[n] y) z ↔ Recurs f x z := by
  obtain ⟨⟨k, rfl⟩, -⟩ := h
  rw [← Function.iterate_add_apply]
  constructor
  · rintro ⟨⟨j, hj⟩, hz⟩
    refine ⟨⟨j + (n + k), ?_⟩, hz⟩
    rw [Function.iterate_add_apply, hj]
  · intro hz
    obtain ⟨j, hle, hj⟩ := hz.exists_ge (n + k)
    refine ⟨⟨j - (n + k), ?_⟩, hz.2⟩
    rw [← Function.iterate_add_apply, Nat.sub_add_cancel hle, hj]

def iterates (f : α → α) (x : α) (n : Nat) : List α := (List.range n).map fun k => f^[k] x

theorem iterates_succ (f : α → α) (x : α) (n : Nat) :
    iterates f x (n + 1) = iterates f x n ++ [f^[n] x] := by
  simp [iterates, List.range_succ]

theorem mem_drop_iterates {i n : Nat} :
    y ∈ (iterates f x n).drop i ↔ ∃ k, i ≤ k ∧ k < n ∧ f^[k] x = y := by
  rw [List.mem_drop_iff_getElem]
  simp only [iterates, List.length_map, List.length_range, List.getElem_map, List.getElem_range]
  constructor
  · rintro ⟨k, hk, rfl⟩
    exact ⟨i + k, by omega, by omega, rfl⟩
  · rintro ⟨k, hi, hn, rfl⟩
    exact ⟨k - i, by omega, by rw [Nat.add_sub_cancel' hi]⟩

/-- Values are collected until one comes up that is among them, however many there are. The search
ends with all values met and the one that came up again. -/
inductive Finds (f : α → α) : List α → α → List α → α → Prop
  | again {seen : List α} {x : α} (hx : x ∈ seen) : Finds f seen x seen x
  | new {seen met : List α} {x y : α} (hx : x ∉ seen) (h : Finds f (seen ++ [x]) (f x) met y) :
      Finds f seen x met y

variable {seen met : List α}

theorem Finds.mem (h : Finds f seen x met y) : y ∈ met := by
  induction h with
  | again hx => exact hx
  | new _ _ ih => exact ih

theorem Finds.unique {met' : List α} (h : Finds f seen x met y) (h' : Finds f seen x met' z) :
    met' = met ∧ z = y := by
  induction h with
  | again hx =>
    cases h' with
    | again _ => exact ⟨rfl, rfl⟩
    | new hx' _ => exact absurd hx hx'
  | new hx _ ih =>
    cases h' with
    | again hx' => exact absurd hx' hx
    | new _ h' => exact ih h'

theorem Finds.eq_iterates {n : Nat} (h : Finds f (iterates f x n) (f^[n] x) met y) :
    ∃ k, met = iterates f x k ∧ y = f^[k] x := by
  generalize hs : iterates f x n = seen at h
  generalize hx : f^[n] x = z at h
  induction h generalizing n with
  | again _ => exact ⟨n, hs.symm, hx.symm⟩
  | new _ _ ih =>
    subst hs hx
    exact ih (iterates_succ f x n) (Function.iterate_succ_apply' f n x)

variable [DecidableEq α]

theorem dropWhile_ne_eq_drop {l : List α} (h : x ∈ l) :
    ∃ i, l.findIdx? (· = x) = some i ∧ l[i]? = some x ∧ l.dropWhile (· ≠ x) = l.drop i := by
  obtain ⟨before, after, rfl, hb⟩ := List.eq_append_cons_of_mem h
  have hne : ∀ a ∈ before, decide (a = x) = false := by
    intro a ha
    exact decide_eq_false fun he => hb (he ▸ ha)
  refine ⟨before.length, ?_, by simp, ?_⟩
  · rw [List.findIdx?_append, List.findIdx?_eq_none_iff.2 hne]
    simp [List.findIdx?_cons]
  · rw [List.drop_left, List.dropWhile_append_of_pos]
    · simp
    · intro a ha
      simpa using hne a ha

/-- The iteration has met a value for the second time: the values since the first time recur, and no
others do. -/
theorem mem_dropWhile_iterates {n : Nat} (h : f^[n] x ∈ iterates f x n) :
    y ∈ (iterates f x n).dropWhile (· ≠ f^[n] x) ↔ Recurs f x y := by
  obtain ⟨i, -, hi, hd⟩ := dropWhile_ne_eq_drop h
  obtain ⟨hlt, hi⟩ := List.getElem?_eq_some_iff.1 hi
  simp only [iterates, List.length_map, List.length_range, List.getElem_map,
    List.getElem_range] at hlt hi
  rw [hd, mem_drop_iterates]
  -- a value at `k`, not before `i`, comes back after `n - i` passes
  have hback : ∀ k, i ≤ k → f^[n - i] (f^[k] x) = f^[k] x := by
    intro k hk
    have hkn : n - i + k = (k - i) + n := by omega
    have hki : k = (k - i) + i := by omega
    rw [← Function.iterate_add_apply, hkn, Function.iterate_add_apply, ← hi,
      ← Function.iterate_add_apply, ← hki]
  constructor
  · rintro ⟨k, hk, -, rfl⟩
    exact ⟨⟨k, rfl⟩, n - i, by omega, hback k hk⟩
  · intro hy
    obtain ⟨k, hk, rfl⟩ := hy.exists_ge i
    refine ⟨i + (k - i) % (n - i), by omega, ?_, ?_⟩
    · have hmod := Nat.mod_lt (k - i) (show 0 < n - i by omega)
      omega
    · have hsplit : k = (n - i) * ((k - i) / (n - i)) + (i + (k - i) % (n - i)) := by
        have hdiv := Nat.div_add_mod (k - i) (n - i)
        omega
      conv_rhs => rw [hsplit, Function.iterate_add_apply]
      exact (iterate_mul_of_fixed (hback _ (by omega)) _).symm

/-- A search that does not come to its limit ends as if there were none. -/
theorem exists_finds_of_cycleAfter? {limit : Nat} {l : List α}
    (h : cycleAfter? f limit seen x = some l) :
    ∃ met y, Finds f seen x met y ∧ l = met.dropWhile (· ≠ y) := by
  induction limit generalizing seen x with
  | zero =>
    rw [cycleAfter?] at h
    split at h
    · cases h
      exact ⟨seen, x, .again ‹_›, rfl⟩
    · cases h
  | succ limit ih =>
    rw [cycleAfter?] at h
    split at h
    · cases h
      exact ⟨seen, x, .again ‹_›, rfl⟩
    · obtain ⟨met, y, hf, hl⟩ := ih h
      exact ⟨met, y, .new ‹_› hf, hl⟩

/-- A cycle is found when a value is met for the second time. -/
theorem cycle?_eq_some {limit : Nat} {l : List α} (h : cycle? f limit x = some l) :
    ∃ k, f^[k] x ∈ iterates f x k ∧ l = (iterates f x k).dropWhile (· ≠ f^[k] x) := by
  obtain ⟨met, y, hf, hl⟩ := exists_finds_of_cycleAfter? h
  obtain ⟨k, rfl, rfl⟩ := Finds.eq_iterates (n := 0) hf
  exact ⟨k, hf.mem, hl⟩

theorem mem_cycle? {limit : Nat} {l : List α} (h : cycle? f limit x = some l) :
    y ∈ l ↔ Recurs f x y := by
  obtain ⟨k, hk, rfl⟩ := cycle?_eq_some h
  exact mem_dropWhile_iterates hk

theorem cycle?_ne_nil {limit : Nat} {l : List α} (h : cycle? f limit x = some l) : l ≠ [] := by
  obtain ⟨k, hk, rfl⟩ := cycle?_eq_some h
  intro hnil
  simpa using List.dropWhile_eq_nil_iff.1 hnil _ hk

theorem isSome_cycleAfter? {s : Finset α} (hs : ∀ y ∈ s, f y ∈ s) {limit : Nat} {seen : List α}
    (hseen : ∀ y ∈ seen, y ∈ s) (hn : seen.Nodup) (hc : s.card ≤ limit + seen.length)
    (hx : x ∈ s) : (cycleAfter? f limit seen x).isSome := by
  induction limit generalizing seen x with
  | zero =>
    have hsub : seen.toFinset ⊆ s := by
      intro y hy
      exact hseen y (List.mem_toFinset.1 hy)
    have hall : seen.toFinset = s := by
      apply Finset.eq_of_subset_of_card_le hsub
      rw [List.toFinset_card_of_nodup hn]
      omega
    have hmem : x ∈ seen := by
      rw [← List.mem_toFinset, hall]
      exact hx
    simp [cycleAfter?, hmem]
  | succ limit ih =>
    rw [cycleAfter?]
    by_cases hmem : x ∈ seen
    · simp [hmem]
    · rw [if_neg hmem]
      apply ih
      · intro y hy
        rcases List.mem_append.1 hy with hy | hy
        · exact hseen y hy
        · rw [List.mem_singleton.1 hy]
          exact hx
      · exact hn.append (List.nodup_singleton x) (by simpa using hmem)
      · simp only [List.length_append, List.length_singleton]
        omega
      · exact hs x hx

/-- Inside a finite set the cycle is found after as many values as the set has. -/
theorem exists_cycle? {s : Finset α} (hs : ∀ y ∈ s, f y ∈ s) {limit : Nat} (hc : s.card ≤ limit)
    (hx : x ∈ s) : ∃ l, cycle? f limit x = some l := by
  apply Option.isSome_iff_exists.1
  apply isSome_cycleAfter? hs _ List.nodup_nil _ hx
  · intro y hy
    cases hy
  · simpa using hc

end TypeClues.Orbit
