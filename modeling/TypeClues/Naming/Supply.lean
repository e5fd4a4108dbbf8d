/-!
# Supplies of numbered names

A supply numbers the words that are asked of it, each word by itself and all of them together.
Both counts start at one.
-/
namespace TypeClues

/-- One answer of a supply: the word, its number among equal words, its number among all. -/
structure Allocation where
  word : String
  number : Nat
  serial : Nat
deriving DecidableEq, Inhabited

/-- Serial numbers decide first, then words, then numbers. -/
instance : Ord Allocation :=
  ⟨compareLex (compareOn Allocation.serial)
    (compareLex (compareOn Allocation.word) (compareOn Allocation.number))⟩

instance : Std.TransOrd Allocation :=
  inferInstanceAs (Std.TransCmp (compareLex (compareOn Allocation.serial)
    (compareLex (compareOn Allocation.word) (compareOn Allocation.number))))

instance : Std.LawfulEqOrd Allocation where
  eq_of_compare {a b} h := by
    change (compare a.serial b.serial).then
      ((compare a.word b.word).then (compare a.number b.number)) = .eq at h
    simp only [Ordering.then_eq_eq, Std.LawfulEqOrd.compare_eq_iff_eq] at h
    obtain ⟨hs, hw, hn⟩ := h
    cases a
    cases b
    simp_all

namespace Allocation

/-- The word with its number, as the name of a variable. -/
def name (a : Allocation) : String := a.word ++ "_" ++ toString a.number

end Allocation

/-- A supply is the list of words it has numbered. -/
structure Supply where
  issued : List String := []
deriving DecidableEq, Inhabited

namespace Supply

def allocated (s : Supply) : Nat := s.issued.length

def allocate (word : String) (s : Supply) : Allocation × Supply :=
  (⟨word, s.issued.count word + 1, s.allocated + 1⟩, ⟨word :: s.issued⟩)

@[simp] theorem allocated_allocate (word : String) (s : Supply) :
    (s.allocate word).2.allocated = s.allocated + 1 := rfl

end Supply
end TypeClues
