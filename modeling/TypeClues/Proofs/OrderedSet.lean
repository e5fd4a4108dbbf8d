import Mathlib.Data.List.Perm.Subperm
import Mathlib.Data.List.Sort
import TypeClues.OrderedSet

/-!
# Members of ordered sets

The least member is taken out of an ordered set first, and a new greatest member does not get in its
way. Two ordered sets with the same members are equal, so equations between sets are proved by
looking at members; a set with more members is a larger one.
-/
namespace TypeClues.OrderedSet
variable {α : Type} [Ord α]

@[simp] theorem not_mem_empty (a : α) : a ∉ (∅ : OrderedSet α) := by simp [mem_def]

theorem mem_of_popLeast? {s t : OrderedSet α} {a x : α} (h : s.popLeast? = some (a, t)) :
    x ∈ s ↔ x = a ∨ x ∈ t := by
  obtain ⟨_ | ⟨b, l⟩, hl⟩ := s
  · cases h
  · cases h
    exact List.mem_cons

theorem lt_of_popLeast? {s t : OrderedSet α} {a x : α} (h : s.popLeast? = some (a, t)) (hx : x ∈ t) :
    compare a x = .lt := by
  obtain ⟨_ | ⟨b, l⟩, hl⟩ := s
  · cases h
  · cases h
    exact (List.pairwise_cons.1 hl).1 x hx

theorem popLeast?_eq_none_iff {s : OrderedSet α} : s.popLeast? = none ↔ s = ∅ := by
  obtain ⟨_ | ⟨b, l⟩, hl⟩ := s
  · exact iff_of_true rfl rfl
  · exact iff_of_false (Option.some_ne_none _) fun h => by simpa using congrArg toList h

variable [Std.TransOrd α]

theorem mem_rest_of_popLeast? {s t : OrderedSet α} {a x : α} (h : s.popLeast? = some (a, t)) :
    x ∈ t ↔ x ∈ s ∧ x ≠ a := by
  rw [mem_of_popLeast? h]
  constructor
  · intro hx
    refine ⟨.inr hx, ?_⟩
    rintro rfl
    simpa using lt_of_popLeast? h hx
  · rintro ⟨hx, hne⟩
    exact hx.resolve_left hne

theorem popLeast?_of_least {s : OrderedSet α} {a : α} (ha : a ∈ s)
    (hl : ∀ x ∈ s, x = a ∨ compare a x = .lt) : ∃ t, s.popLeast? = some (a, t) := by
  cases hs : s.popLeast? with
  | none =>
    rw [popLeast?_eq_none_iff.1 hs] at ha
    exact absurd ha (not_mem_empty a)
  | some p =>
    obtain ⟨b, t⟩ := p
    rcases (mem_of_popLeast? hs).1 ha with rfl | hat
    · exact ⟨t, rfl⟩
    · have hgt := Std.OrientedCmp.gt_of_lt (lt_of_popLeast? hs hat)
      rcases hl b ((mem_of_popLeast? hs).2 (.inl rfl)) with rfl | hlt
      · exact ⟨t, rfl⟩
      · rw [hlt] at hgt
        cases hgt

/-- A greater member leaves the least one first. -/
theorem popLeast?_insert {s t : OrderedSet α} {a b : α} (h : s.popLeast? = some (a, t))
    (hb : compare a b = .lt) : (s.insert b).popLeast? = some (a, t.insert b) := by
  obtain ⟨_ | ⟨c, l⟩, hl⟩ := s
  · cases h
  · cases h
    have hi : insertInto b (a :: l) = a :: insertInto b l := by
      rw [insertInto, Std.OrientedCmp.gt_of_lt hb]
    simp only [insert, popLeast?, hi]

private instance : Std.Irrefl fun a b : α => compare a b = .lt :=
  ⟨fun a h => by simp [Std.ReflCmp.compare_self] at h⟩

private instance : Std.Antisymm fun a b : α => compare a b = .lt :=
  ⟨fun a b h h' => by
    have hg := Std.OrientedCmp.gt_of_lt h
    rw [h'] at hg
    cases hg⟩

@[ext] theorem ext {s t : OrderedSet α} (h : ∀ a, a ∈ s ↔ a ∈ t) : s = t := by
  obtain ⟨l, hl⟩ := s
  obtain ⟨m, hm⟩ := t
  obtain rfl : l = m := hl.eq_of_mem_iff hm h
  rfl

theorem nodup_toList (s : OrderedSet α) : s.toList.Nodup := s.ascending.nodup

theorem size_lt_size {s t : OrderedSet α} {a : α} (h : ∀ x ∈ s, x ∈ t) (ha : a ∈ t) (hn : a ∉ s) :
    s.size < t.size := by
  have hnodup : (a :: s.toList).Nodup := List.nodup_cons.2 ⟨hn, s.nodup_toList⟩
  have hsub : a :: s.toList ⊆ t.toList := List.cons_subset.2 ⟨ha, h⟩
  exact (hnodup.subperm hsub).length_le

end TypeClues.OrderedSet
