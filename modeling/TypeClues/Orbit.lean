/-!
# Orbits

A function applied again and again to a value either keeps giving new values or falls into a
cycle. The values of the cycle are those that recur.
-/
namespace TypeClues.Orbit
variable {α : Type} [DecidableEq α]

/-- The cycle that iteration from `x` falls into, after the values in `seen`; `none` if more than
`limit` new values come up first. -/
def cycleAfter? (f : α → α) : (limit : Nat) → (seen : List α) → α → Option (List α)
  | 0, seen, x => if x ∈ seen then some (seen.dropWhile (· ≠ x)) else none
  | n + 1, seen, x =>
    if x ∈ seen then some (seen.dropWhile (· ≠ x)) else cycleAfter? f n (seen ++ [x]) (f x)

/-- The recurring values of the iteration from `x`, if it meets at most `limit` values in all. -/
def cycle? (f : α → α) (limit : Nat) (x : α) : Option (List α) := cycleAfter? f limit [] x

end TypeClues.Orbit
