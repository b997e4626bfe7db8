import Significance.Decimal.Shortest

/-!
# Reading numerals

A numeral is a sign, digits with at most one point, and an optional power of ten. It is read as the
double nearest to it, a tie to the even significand, whatever its length.
-/

namespace Significance.Decimal

/-- A written number `± digits * 10 ^ exponent`. -/
structure Numeral where
  negative : Bool
  digits : Nat
  exponent : Int
  deriving DecidableEq, Repr

/-- The double nearest to a numeral. A numeral of 400 places is beyond the largest double, and one
that starts 400 places behind the point is below half the smallest, so neither power is computed. -/
def Numeral.toFloat (numeral : Numeral) : Float :=
  let place := (length numeral.digits : Int) + numeral.exponent
  let size :=
    if numeral.digits = 0 then 0.0
    else if 400 < place then 1.0 / 0.0
    else if place < -400 then 0.0
    else Float.ofScientific numeral.digits (numeral.exponent < 0) numeral.exponent.natAbs
  if numeral.negative then -size else size

/-- The value of a character as a decimal digit. -/
def digit? (c : Char) : Option Nat :=
  if '0' ≤ c ∧ c ≤ '9' then some (c.toNat - '0'.toNat) else none

/-- The digits at the start of a text, as their values, and the rest of the text. -/
def spanDigits : List Char → List Nat × List Char
  | [] => ([], [])
  | c :: rest =>
    match digit? c with
    | some d => let (ds, after) := spanDigits rest; (d :: ds, after)
    | none => ([], c :: rest)

/-- The number that digits denote in base ten. -/
def ofDigits (digits : List Nat) : Nat :=
  digits.foldl (fun n d => 10 * n + d) 0

/-- A sign at the start of a text, `true` for minus, and the rest. -/
def spanSign : List Char → Bool × List Char
  | '-' :: rest => (true, rest)
  | '+' :: rest => (false, rest)
  | text => (false, text)

/-- A power of ten that ends a numeral: the letter `e`, an optional sign, at least one digit. -/
def exponent? : List Char → Option Int
  | [] => some 0
  | c :: rest =>
    if c = 'e' ∨ c = 'E' then
      let (negative, rest) := spanSign rest
      match spanDigits rest with
      | ([], _) => none
      | (ds, []) => some (if negative then -(ofDigits ds : Int) else ofDigits ds)
      | (_, _ :: _) => none
    else none

/-- A numeral without its sign. There is a digit before or behind the point. -/
def unsigned? (negative : Bool) (text : List Char) : Option Numeral :=
  let (whole, rest) := spanDigits text
  let (fraction, rest) :=
    match rest with
    | '.' :: rest => spanDigits rest
    | rest => ([], rest)
  if whole.isEmpty ∧ fraction.isEmpty then none
  else
    (exponent? rest).map fun power =>
      { negative, digits := ofDigits (whole ++ fraction), exponent := power - fraction.length }

/-- Lower case of the letters `A` to `Z`; the words read here have no others. -/
def lowerLetter (c : Char) : Char :=
  if 'A' ≤ c ∧ c ≤ 'Z' then Char.ofNat (c.toNat + 32) else c

/-- Reads a double: a numeral, or one of the words `nan`, `inf` and `infinity` in any case, with an
optional sign and nothing around it. -/
def read? (text : String) : Option Float :=
  let (negative, rest) := spanSign text.toList
  match unsigned? negative rest with
  | some numeral => some numeral.toFloat
  | none =>
    let word := String.ofList (rest.map lowerLetter)
    if word = "nan" then some (0.0 / 0.0)
    else if word = "inf" ∨ word = "infinity" then
      some (if negative then -(1.0 / 0.0) else 1.0 / 0.0)
    else none

end Significance.Decimal
