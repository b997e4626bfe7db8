import Significance.Decimal.Numeral
import Significance.Decimal.Binary

/-!
# The order of written numbers

All texts that read as doubles are ordered: numbers by their value with the negative zero before the
positive one, infinities at the ends, and what is no number beyond them on the side of its sign.
-/

namespace Significance.Decimal

/-- The place of a double among all doubles: its bits without the sign, counted from zero on and
for negative numbers from minus one downwards. -/
def rank (x : Float) : Int :=
  let word := x.toBits.toNat
  if word < twoTo 63 then word else -1 - ((word - twoTo 63 : Nat) : Int)

/-- The place of a written double. A text that reads as no number keeps its sign. -/
def rank? (text : String) : Option Int :=
  (read? text).map fun x =>
    if x.isNaN then
      if text.toList.head? = some '-' then -(twoTo 63 : Int) else twoTo 63
    else rank x

example : rank 0.0 = 0 ∧ rank 1.0 = 0x3ff0000000000000 := by decide
example : rank (-0.0) = -1 := by decide

end Significance.Decimal
