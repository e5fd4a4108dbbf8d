/-!
# Ordered sets

Finite sets kept as strictly ascending lists. A set has one representation, so two sets with the
same members are equal, and the least member stands first.
-/
namespace TypeClues

/-- A finite set, listed in strictly ascending order. -/
structure OrderedSet (α : Type) [Ord α] where
  toList : List α
  ascending : toList.Pairwise (fun a b => compare a b = .lt)

namespace OrderedSet
variable {α : Type} [Ord α]

instance [DecidableEq α] : DecidableEq (OrderedSet α) := fun s t =>
  decidable_of_iff (s.toList = t.toList)
    ⟨fun h => by cases s; cases t; cases h; rfl, fun h => congrArg toList h⟩

instance : Membership α (OrderedSet α) := ⟨fun s a => a ∈ s.toList⟩

instance [DecidableEq α] (a : α) (s : OrderedSet α) : Decidable (a ∈ s) :=
  inferInstanceAs (Decidable (a ∈ s.toList))

theorem mem_def {a : α} {s : OrderedSet α} : a ∈ s ↔ a ∈ s.toList := Iff.rfl

def empty : OrderedSet α := ⟨[], .nil⟩

instance : EmptyCollection (OrderedSet α) := ⟨empty⟩
instance : Inhabited (OrderedSet α) := ⟨empty⟩

@[simp] theorem toList_empty : (∅ : OrderedSet α).toList = [] := rfl

def size (s : OrderedSet α) : Nat := s.toList.length

/-- Puts a member at its place in an ascending list; a member already there stays. -/
def insertInto (a : α) : List α → List α
  | [] => [a]
  | b :: l =>
    match compare a b with
    | .lt => a :: b :: l
    | .eq => b :: l
    | .gt => b :: insertInto a l

theorem mem_of_mem_insertInto {a x : α} {l : List α} (h : x ∈ insertInto a l) :
    x = a ∨ x ∈ l := by
  induction l with
  | nil => simpa [insertInto] using h
  | cons b l ih =>
    rw [insertInto] at h
    split at h
    · simpa using h
    · exact .inr h
    · rcases List.mem_cons.1 h with rfl | h
      · exact .inr (by simp)
      · exact (ih h).imp id (List.mem_cons_of_mem b)

theorem ascending_insertInto [Std.TransOrd α] (a : α) {l : List α}
    (h : l.Pairwise (fun a b => compare a b = .lt)) :
    (insertInto a l).Pairwise (fun a b => compare a b = .lt) := by
  induction l with
  | nil => simp [insertInto]
  | cons b l ih =>
    rw [insertInto]
    have hb := List.pairwise_cons.1 h
    split
    · rename_i hab
      refine List.pairwise_cons.2 ⟨fun x hx => ?_, h⟩
      rcases List.mem_cons.1 hx with rfl | hx
      · exact hab
      · exact Std.TransCmp.lt_trans hab (hb.1 x hx)
    · exact h
    · rename_i hab
      refine List.pairwise_cons.2 ⟨fun x hx => ?_, ih hb.2⟩
      rcases mem_of_mem_insertInto hx with rfl | hx
      · exact Std.OrientedCmp.lt_of_gt hab
      · exact hb.1 x hx

def insert [Std.TransOrd α] (a : α) (s : OrderedSet α) : OrderedSet α :=
  ⟨insertInto a s.toList, ascending_insertInto a s.ascending⟩

def ofList [Std.TransOrd α] (l : List α) : OrderedSet α := l.foldr insert ∅

def union [Std.TransOrd α] (s t : OrderedSet α) : OrderedSet α := t.toList.foldr insert s

/-- The least member and the set without it. -/
def popLeast? (s : OrderedSet α) : Option (α × OrderedSet α) :=
  match s with
  | ⟨[], _⟩ => none
  | ⟨a :: l, h⟩ => some (a, ⟨l, (List.pairwise_cons.1 h).2⟩)

section Lawful
variable [Std.LawfulEqOrd α]

theorem mem_insertInto {a x : α} {l : List α} : x ∈ insertInto a l ↔ x = a ∨ x ∈ l := by
  induction l with
  | nil => simp [insertInto]
  | cons b l ih =>
    rw [insertInto]
    split
    · simp
    · rename_i hab
      rw [Std.LawfulEqOrd.compare_eq_iff_eq] at hab
      simp [hab]
    · rw [List.mem_cons, ih, List.mem_cons]
      exact or_left_comm

variable [Std.TransOrd α]

@[simp] theorem mem_insert {a x : α} {s : OrderedSet α} : x ∈ s.insert a ↔ x = a ∨ x ∈ s :=
  mem_insertInto

@[simp] theorem mem_ofList {x : α} {l : List α} : x ∈ ofList l ↔ x ∈ l := by
  induction l with
  | nil => simp [ofList, mem_def]
  | cons a l ih =>
    have h : ofList (a :: l) = (ofList l).insert a := rfl
    rw [h, mem_insert, ih, List.mem_cons]

@[simp] theorem mem_union {x : α} {s t : OrderedSet α} : x ∈ s.union t ↔ x ∈ s ∨ x ∈ t := by
  have h : ∀ l : List α, x ∈ l.foldr insert s ↔ x ∈ s ∨ x ∈ l := by
    intro l
    induction l with
    | nil => simp
    | cons a l ih => rw [List.foldr_cons, mem_insert, ih, List.mem_cons]; exact or_left_comm
  exact h t.toList

end Lawful
end OrderedSet
end TypeClues
