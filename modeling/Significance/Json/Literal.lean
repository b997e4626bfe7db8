import Significance.Decimal.Numeral

/-!
# Number literals of JSON documents

A literal denotes a double by its leading digits, as many as a 64-bit word holds, read as one whole
number and scaled by one power of ten. Digits after these only count for their places. A literal
beyond every double is out of range, one below is a zero.
-/

namespace Significance.Json

/-- A number as it is written: digits before and behind the point, and the digits of the power of
ten with `true` for a negative one. -/
structure Literal where
  negative : Bool
  whole : List Nat
  fraction : List Nat
  power : Option (Bool × List Nat)
  deriving DecidableEq, Repr

namespace Literal

/-- Whole numbers below this fit into a 64-bit word. -/
def wordLimit : Nat := Decimal.twoTo 64

/-- The number of the leading digits that fit into a word after `n`, and how many digits are left. -/
def leading : List Nat → Nat → Nat × Nat
  | [], n => (n, 0)
  | d :: rest, n =>
    if 10 * n + d < wordLimit then leading rest (10 * n + d) else (n, rest.length + 1)

/-- Powers of ten that are larger than this count as infinite. -/
def powerLimit : Nat := Decimal.twoTo 31

/-- A power of ten, a positive one. -/
def tenTo (k : Nat) : Float :=
  Decimal.Numeral.toFloat ⟨false, 1, k⟩

/-- A number times a power of ten; nothing where that is beyond every double. -/
def raise? (x : Float) (k : Nat) : Option Float :=
  if x == 0.0 then some x
  else if 308 < k then none
  else
    let y := x * tenTo k
    if y.isFinite then some y else none

/-- A number below `2 ^ 64` over a power of ten, in steps of `308` places. -/
def lower (x : Float) (k : Nat) : Float :=
  if k ≤ 308 then x / tenTo k
  else if k ≤ 616 then x / tenTo 308 / tenTo (k - 308)
  else 0.0

/-- A whole number times a power of ten. -/
def scale? (n : Nat) (power : Int) : Option Float :=
  let x := Decimal.Numeral.toFloat ⟨false, n, 0⟩
  if 0 ≤ power then raise? x power.toNat else some (lower x power.natAbs)

/-- The size of a literal. -/
def size? (literal : Literal) : Option Float :=
  let (n, dropped) := leading literal.whole 0
  let (n, left) := leading literal.fraction n
  let start := (dropped : Int) - (literal.fraction.length - left : Nat)
  match literal.power with
  | none => scale? n start
  | some (negative, digits) =>
    let power := Decimal.ofDigits digits
    if powerLimit ≤ power then
      if n ≠ 0 ∧ !negative then none else some 0.0
    else
      scale? n (if negative then start - power else start + power)

/-- The double that a literal denotes. -/
def double? (literal : Literal) : Option Float :=
  literal.size?.map fun x => if literal.negative then -x else x

/-- The whole number that a literal without sign, point and power denotes, if it fits into a
word. -/
def natural? (literal : Literal) : Option Nat :=
  if literal.negative ∨ !literal.fraction.isEmpty ∨ literal.power.isSome then none
  else
    match leading literal.whole 0 with
    | (n, 0) => some n
    | (_, _ + 1) => none

end Literal

end Significance.Json
