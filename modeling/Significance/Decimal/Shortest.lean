import Significance.Decimal.Binary
import Significance.Decimal.Rounding

/-!
# The shortest decimal that reads back

A decimal reads back as a double when it lies among the reals that round to that double. The
digits of a double are those of the coarsest decimal grid with a point among these reals, and of
the points on that grid the nearest one.
-/

namespace Significance.Decimal

/-- A point of a decimal grid: the number `digits * 10 ^ exponent`. -/
structure GridPoint where
  digits : Nat
  exponent : Int
  deriving DecidableEq, Repr

/-- A positive value and the reals that round to it, over one denominator. The ends belong to
these reals when `closed` is set. -/
structure Neighbourhood where
  lower : Nat
  value : Nat
  upper : Nat
  denominator : Nat
  closed : Bool

/-- The reals that round to `significand * 2 ^ exponent`: half a unit to either side, and half of
that below a power of two, where the spacing of the doubles changes. -/
def Neighbourhood.ofBinary (significand : Nat) (exponent : Int) : Neighbourhood :=
  let (scale, denominator) := quotient 1 (exponent - 2)
  let below := if significand = twoTo 52 then 1 else 2
  { lower := (4 * significand - below) * scale
    value := 4 * significand * scale
    upper := (4 * significand + 2) * scale
    denominator
    closed := significand % 2 = 0 }

/-- Whether `n * 10 ^ k` rounds to the value. -/
def Neighbourhood.contains (s : Neighbourhood) (n : Nat) (k : Int) : Bool :=
  let (power, divisor) := if 0 ≤ k then (tenTo k.toNat, 1) else (1, tenTo (-k).toNat)
  let point := n * power * s.denominator
  let low := s.lower * divisor
  let high := s.upper * divisor
  if s.closed then low ≤ point && point ≤ high else low < point && point < high

/-- The point of the grid `10 ^ k` that is nearest to the value among those that round to it. -/
def Neighbourhood.nearest? (tie : Tie) (s : Neighbourhood) (k : Int) : Option Nat :=
  let (numerator, denominator) :=
    if 0 ≤ k then (s.value, s.denominator * tenTo k.toNat)
    else (s.value * tenTo (-k).toNat, s.denominator)
  let below := numerator / denominator
  let best := roundQuotient tie numerator denominator
  let other := if best = below then below + 1 else below
  if s.contains best k then some best
  else if s.contains other k then some other
  else none

/-- Number of decimal digits of a positive number. -/
def length (n : Nat) : Nat :=
  (Nat.toDigits 10 n).length

/-- The place of the first digit: the power of ten just above the positive quotient. -/
def magnitude (numerator denominator : Nat) : Int :=
  if denominator ≤ numerator then
    length (numerator / denominator)
  else
    let estimate := length denominator - length numerator + 1
    length (numerator * tenTo estimate / denominator) - (estimate : Int)

/-- Searches the grids `10 ^ k`, `10 ^ (k - 1)`, … for the first with a point that reads back. -/
def Neighbourhood.search (tie : Tie) (s : Neighbourhood) : Nat → Int → GridPoint
  | 0, k => ⟨roundQuotient tie (s.value * tenTo (-k).toNat) (s.denominator * tenTo k.toNat), k⟩
  | fuel + 1, k =>
    match s.nearest? tie k with
    | some n => ⟨n, k⟩
    | none => s.search tie fuel (k - 1)

/-- The shortest decimal that reads back as the positive `significand * 2 ^ exponent`. Seventeen
digits always do, so the search never leaves its eighteen grids. -/
def shortest (tie : Tie) (significand : Nat) (exponent : Int) : GridPoint :=
  let s := Neighbourhood.ofBinary significand exponent
  s.search tie 18 (magnitude s.value s.denominator)

example : shortest .up (twoTo 52) (-52) = ⟨1, 0⟩ := by decide +kernel
example : shortest .up 1 (-1074) = ⟨5, -324⟩ := by decide +kernel
example : shortest .up 7205759403792794 (-56) = ⟨1, -1⟩ := by decide +kernel
example : shortest .up 4503599627370497 (-2) = ⟨11258999068426243, -1⟩ := by decide +kernel
example : shortest .toEven 4503599627370497 (-2) = ⟨11258999068426242, -1⟩ := by decide +kernel

end Significance.Decimal
