import Significance.Decimal.Power

/-!
# Combinations of positions

The combinations of `k` of the first `n` positions, each in increasing order, one after the other
as words are ordered. They turn like an odometer: the last entry that can still move goes on by one,
and all entries behind it line up right after it.

Every entry is read and every number subtracted under a check, so a turn that left its list or fell
below zero would have no result.
-/

namespace Significance.Combination

/-- The difference of two numbers, unless it is below zero. -/
def difference? (a b : Nat) : Option Nat :=
  if b ≤ a then some (a - b) else none

/-- A combination with another entry at one of its indices. -/
def replace? (places : List Nat) (i place : Nat) : Option (List Nat) :=
  if i < places.length then some (places.set i place) else none

/-- How many of the first `i` entries remain without those at the end that can move no further. -/
def movable? (n k : Nat) (places : List Nat) : Nat → Option Nat
  | 0 => some 0
  | i + 1 => do
    let place ← places[i]?
    let last ← difference? (i + n) k
    if place = last then movable? n k places i else some (i + 1)

/-- Lines up `count` entries from index `i` on, each right after the entry before it. -/
def lineUp? : Nat → Nat → List Nat → Option (List Nat)
  | 0, _, places => some places
  | count + 1, i, places => do
    let before ← difference? i 1
    let place ← places[before]?
    let longer ← replace? places i (place + 1)
    lineUp? count (i + 1) longer

/-- The combination after another one; there is none after the last. -/
def turn? (n k : Nat) (places : List Nat) : Option (Option (List Nat)) := do
  let i ← movable? n k places k
  if i = 0 then
    some none
  else
    let moving ← difference? i 1
    let place ← places[moving]?
    let moved ← replace? places moving (place + 1)
    let next ← lineUp? (k - i) i moved
    some (some next)

/-- A combination and all after it, of which there are no more than `limit`. -/
def walk? (n k : Nat) : Nat → List Nat → Option (List (List Nat))
  | 0, _ => none
  | limit + 1, places => do
    match ← turn? n k places with
    | none => some [places]
    | some next =>
      let rest ← walk? n k limit next
      some (places :: rest)

/-- All combinations of some of the first `n` positions. There are no more than subsets of the
positions. -/
def all? (n k : Nat) : Option (List (List Nat)) :=
  if k = 0 ∨ n < k then some [] else walk? n k (Decimal.twoTo n) (List.range k)

example : all? 4 2 = some [[0, 1], [0, 2], [0, 3], [1, 2], [1, 3], [2, 3]] := by decide

end Significance.Combination
