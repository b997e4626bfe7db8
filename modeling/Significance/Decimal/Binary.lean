import Significance.Decimal.Power

/-!
# Doubles as exact binary fractions

A finite double is a whole number times a power of two. Every exact text of a number in this
library starts from that pair, so no rounding happens before the one that the text asks for.
-/

namespace Significance.Decimal

/-- What a double holds: no number, an infinity, or `± significand * 2 ^ exponent`. -/
inductive Binary
  | nan
  | infinite (negative : Bool)
  | finite (negative : Bool) (significand : Nat) (exponent : Int)
  deriving DecidableEq, Repr

/-- Reads the 64 bits of a double: one of sign, eleven of exponent, fifty-two of fraction. -/
def Binary.ofBits (bits : UInt64) : Binary :=
  let word := bits.toNat
  let negative := decide (twoTo 63 ≤ word)
  let field := word / twoTo 52 % twoTo 11
  let fraction := word % twoTo 52
  if field = 2047 then
    if fraction = 0 then .infinite negative else .nan
  else if field = 0 then
    .finite negative fraction (-1074)
  else
    .finite negative (twoTo 52 + fraction) (Int.ofNat field - 1075)

/-- The exact value that a double holds. -/
def Binary.ofFloat (x : Float) : Binary :=
  .ofBits x.toBits

/-- The quotient of two whole numbers that equals `significand * 2 ^ exponent`. -/
def quotient (significand : Nat) (exponent : Int) : Nat × Nat :=
  if 0 ≤ exponent then (significand * twoTo exponent.toNat, 1)
  else (significand, twoTo (-exponent).toNat)

/-- The whole number that a double is, if it is one. -/
def whole? (x : Float) : Option Int :=
  match Binary.ofFloat x with
  | .finite negative significand exponent =>
    let (numerator, denominator) := quotient significand exponent
    if numerator % denominator = 0 then
      let size : Int := (numerator / denominator : Nat)
      some (if negative then -size else size)
    else none
  | _ => none

example : Binary.ofFloat 1.0 = .finite false (twoTo 52) (-52) := by decide
example : Binary.ofBits 0x8000000000000000 = .finite true 0 (-1074) := by decide
example : Binary.ofBits 0x7ff0000000000000 = .infinite false := by decide

end Significance.Decimal
