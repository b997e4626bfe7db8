import Significance.Decimal.Shortest

/-!
# Writing doubles as text

Four texts of a double: the shortest one in positional notation (`plain`), the shortest one of a
JSON document (`json`), a given number of places (`fixed`), and a given number of places after the
first digit with a power of ten (`scientific`). The last two round the exact value of the double,
a tie to the even digit.
-/

namespace Significance.Decimal

/-- How shortest digits are laid out. -/
structure Layout where
  /-- Whether a point may be set, given the place of the first digit counted from the point. -/
  positional : Int → Bool
  /-- Whole numbers end in `.0`. -/
  pointZero : Bool
  /-- A positive power of ten carries a plus sign. -/
  plusSign : Bool
  /-- Which of two equally near shortest decimals is taken. -/
  tie : Tie

/-- Text for readers: never a power of ten, no point in a whole number. -/
def Layout.plain : Layout :=
  { positional := fun _ => true, pointZero := false, plusSign := false, tie := .up }

/-- Text of a JSON number: positional from `0.00001` up to sixteen whole digits. -/
def Layout.json : Layout :=
  { positional := fun place => -5 < place && place ≤ 16, pointZero := true, plusSign := true,
    tie := .toEven }

/-- The decimal digits of a number, at least one. -/
def digitsOf (n : Nat) : List Char :=
  Nat.toDigits 10 n

/-- `count` zeros. -/
def zeros (count : Nat) : List Char :=
  List.replicate count '0'

/-- A minus sign where one is wanted. -/
def sign (negative : Bool) : List Char :=
  if negative then ['-'] else []

/-- A whole number in decimal digits. -/
def integral (n : Int) : String :=
  String.ofList (sign (n < 0) ++ digitsOf n.natAbs)

/-- Digits with a point before the last `places` of them, filled up with zeros on the left. -/
def pointed (digits : List Char) (places : Nat) : List Char :=
  let filled := zeros (places + 1 - digits.length) ++ digits
  let whole := filled.take (filled.length - places)
  let fraction := filled.drop (filled.length - places)
  if fraction.isEmpty then whole else whole ++ '.' :: fraction

/-- Digits with a point behind the first of them, and the power of ten of that digit. -/
def scaled (digits : List Char) (plusSign : Bool) (power : Int) : List Char :=
  let mark := if power < 0 then ['-'] else if plusSign then ['+'] else []
  pointed digits (digits.length - 1) ++ 'e' :: mark ++ digitsOf power.natAbs

/-- The shortest digits of a positive double under a layout. -/
def Layout.positive (layout : Layout) (significand : Nat) (exponent : Int) : List Char :=
  let d := shortest layout.tie significand exponent
  let digits := digitsOf d.digits
  let place := digits.length + d.exponent
  if layout.positional place then
    if 0 ≤ d.exponent then
      digits ++ zeros d.exponent.toNat ++ (if layout.pointZero then ['.', '0'] else [])
    else
      pointed digits (-d.exponent).toNat
  else
    scaled digits layout.plusSign (place - 1)

/-- A double under a layout; what is no number or not finite is spelled out. -/
def Layout.text (layout : Layout) (x : Float) : String :=
  match Binary.ofFloat x with
  | .nan => "NaN"
  | .infinite negative => String.ofList (sign negative ++ ['i', 'n', 'f'])
  | .finite negative 0 _ =>
    String.ofList (sign negative ++ '0' :: (if layout.pointZero then ['.', '0'] else []))
  | .finite negative significand exponent =>
    String.ofList (sign negative ++ layout.positive significand exponent)

/-- The shortest text of a double that reads back, without a power of ten. -/
def plain (x : Float) : String :=
  Layout.plain.text x

/-- The shortest text of a finite double in a JSON document. -/
def json (x : Float) : String :=
  Layout.json.text x

/-- A double with exactly `places` digits behind the point. -/
def fixed (places : Nat) (x : Float) : String :=
  match Binary.ofFloat x with
  | .nan => "NaN"
  | .infinite negative => String.ofList (sign negative ++ ['i', 'n', 'f'])
  | .finite negative significand exponent =>
    let (numerator, denominator) := quotient significand exponent
    let rounded := roundQuotient .toEven (numerator * tenTo places) denominator
    String.ofList (sign negative ++ pointed (digitsOf rounded) places)

/-- The digits, one and `places` more, of a positive quotient, and the power of ten of the first. -/
def leadingDigits (places : Nat) (numerator denominator : Nat) : Nat × Int :=
  let power := magnitude numerator denominator - 1
  let shift := (places : Int) - power
  let rounded :=
    if 0 ≤ shift then roundQuotient .toEven (numerator * tenTo shift.toNat) denominator
    else roundQuotient .toEven numerator (denominator * tenTo (-shift).toNat)
  if rounded < tenTo (places + 1) then (rounded, power) else (rounded / 10, power + 1)

/-- A double with one digit before the point, `places` behind it, and a power of ten. -/
def scientific (places : Nat) (x : Float) : String :=
  match Binary.ofFloat x with
  | .nan => "NaN"
  | .infinite negative => String.ofList (sign negative ++ ['i', 'n', 'f'])
  | .finite negative 0 _ =>
    String.ofList (sign negative ++ scaled (zeros (places + 1)) false 0)
  | .finite negative significand exponent =>
    let (numerator, denominator) := quotient significand exponent
    let (digits, power) := leadingDigits places numerator denominator
    String.ofList (sign negative ++ scaled (digitsOf digits) false power)

end Significance.Decimal
