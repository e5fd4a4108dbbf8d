/-!
# Dividing texts

Where a text is put together from parts with a mark between them, the parts can be told from the
text if the mark is in none of the first parts, or in none of the last. An opening parenthesis is a
mark that may be in all parts. Then it has to be the one that matches the parenthesis closed last.
-/
namespace TypeClues
variable {a b l m : List Char}

/-- Texts are divided by a character in one way, unless it divides one of the parts again. -/
theorem append_cons_inj {x : Char} (h : a ++ x :: l = b ++ x :: m)
    (hl : ∀ c, b = a ++ x :: c → l ≠ c ++ x :: m) (hm : ∀ c, a = b ++ x :: c → m ≠ c ++ x :: l) :
    a = b ∧ l = m := by
  rcases List.append_eq_append_iff.1 h with ⟨c, hb, hc⟩ | ⟨c, ha, hc⟩
  · cases c with
    | nil => exact ⟨by rw [hb, List.append_nil], (List.cons.inj hc).2⟩
    | cons y c =>
      obtain ⟨rfl, hl'⟩ := List.cons.inj hc
      exact absurd hl' (hl c hb)
  · cases c with
    | nil => exact ⟨by rw [ha, List.append_nil], (List.cons.inj hc).2.symm⟩
    | cons y c =>
      obtain ⟨rfl, hm'⟩ := List.cons.inj hc
      exact absurd hm' (hm c ha)

theorem append_cons_inj_of_not_mem_left {x : Char} (ha : x ∉ a) (hb : x ∉ b)
    (h : a ++ x :: l = b ++ x :: m) : a = b ∧ l = m := by
  apply append_cons_inj h
  · rintro c rfl
    simp at hb
  · rintro c rfl
    simp at ha

theorem append_cons_inj_of_not_mem_right {x : Char} (hl : x ∉ l) (hm : x ∉ m)
    (h : a ++ x :: l = b ++ x :: m) : a = b ∧ l = m := by
  apply append_cons_inj h
  · rintro c - rfl
    simp at hl
  · rintro c - rfl
    simp at hm

/-- Read from the right, no parenthesis opens that has not been closed, and in the end all are
matched. -/
structure Matched (l : List Char) : Prop where
  opened : ∀ a b, l = a ++ b → b.count '(' ≤ b.count ')'
  balanced : l.count '(' = l.count ')'

theorem matched_of_not_mem (ho : '(' ∉ l) (hc : ')' ∉ l) : Matched l := by
  constructor
  · rintro a b rfl
    have hb : '(' ∉ b := fun h => ho (List.mem_append_right a h)
    simp [List.count_eq_zero_of_not_mem hb]
  · rw [List.count_eq_zero_of_not_mem ho, List.count_eq_zero_of_not_mem hc]

theorem Matched.append (hl : Matched l) (hm : Matched m) : Matched (l ++ m) := by
  constructor
  · intro a b h
    -- the end segment lies in `m`, or it has all of `m` and an end segment of `l`
    rcases List.append_eq_append_iff.1 h with ⟨c, rfl, rfl⟩ | ⟨c, rfl, rfl⟩
    · exact hm.opened c b rfl
    · have hc := hl.opened a c rfl
      have hb := hm.balanced
      simp only [List.count_append]
      omega
  · rw [List.count_append, List.count_append, hl.balanced, hm.balanced]

theorem Matched.enclosed (hl : Matched l) : Matched ('(' :: (l ++ [')'])) := by
  have hb := hl.balanced
  constructor
  · intro a b h
    cases a with
    | nil =>
      obtain rfl : '(' :: (l ++ [')']) = b := h
      simp [hb]
    | cons x a =>
      rcases List.append_eq_append_iff.1 (List.cons.inj h).2 with ⟨c, rfl, hc⟩ | ⟨c, rfl, rfl⟩
      · have hs : b <:+ [')'] := ⟨c, hc.symm⟩
        have ho : '(' ∉ b := fun hm => by simpa using hs.subset hm
        simp [List.count_eq_zero_of_not_mem ho]
      · have hc := hl.opened a c rfl
        simp only [List.count_append, List.count_singleton_self, List.count_nil,
          List.count_cons_of_ne (by decide : ')' ≠ '(')]
        omega
  · simp [hb]

/-- A parenthesis that opens a matched text is not inside another one. -/
theorem Matched.ne_append (hl : Matched l) (hm : Matched m) (a : List Char) :
    l ≠ a ++ '(' :: m := by
  intro h
  have ho := hl.opened a _ h
  have hb := hm.balanced
  simp only [List.count_cons_self, List.count_cons_of_ne (by decide : '(' ≠ ')')] at ho
  omega

/-- Read from the right, a text has one place where the parenthesis closed last is opened. -/
theorem Matched.append_inj (hl : Matched l) (hm : Matched m)
    (h : a ++ '(' :: l = b ++ '(' :: m) : a = b ∧ l = m :=
  append_cons_inj h (fun c _ => hl.ne_append hm c) (fun c _ => hm.ne_append hl c)

end TypeClues
