/-!
# Scalars

Every statistic of this library is written once, over any type with the operations below. Run at
`Float` it is the program; read over the real numbers it is the mathematics that the program
rounds.
-/

namespace Significance

/-- The arithmetic, order tests and elementary functions that the statistics use. -/
class Scalar (α : Type) extends Add α, Sub α, Mul α, Div α, Neg α, LT α, LE α, OfScientific α where
  decidableLT : DecidableLT α
  decidableLE : DecidableLE α
  /-- A whole number. -/
  ofNat : Nat → α
  /-- A positive value beyond every finite one. -/
  infinity : α
  /-- The result of an operation that has none. -/
  undefined : α
  isFinite : α → Bool
  abs : α → α
  sqrt : α → α
  exp : α → α
  log : α → α
  pow : α → α → α
  /-- The whole number that a value is, if it is one. -/
  whole? : α → Option Int
  /-- The shortest text that reads back as the value. -/
  text : α → String

namespace Scalar

variable {α : Type} [Scalar α]

@[always_inline] instance : DecidableLT α := Scalar.decidableLT

@[always_inline] instance : DecidableLE α := Scalar.decidableLE

/-- Zero of either sign. -/
@[inline] def isZero (x : α) : Bool :=
  x ≤ 0.0 && 0.0 ≤ x

/-- A result that is no number is not even equal to itself. -/
@[inline] def isUndefined (x : α) : Bool :=
  !(x ≤ x)

@[inline] def square (x : α) : α :=
  x * x

/-- The smaller of two values; an undefined one counts as absent. -/
@[inline] def minimum (x y : α) : α :=
  if isUndefined x then y
  else if y < x then y
  else x

/-- The larger of two values; an undefined one counts as absent. -/
@[inline] def maximum (x y : α) : α :=
  if isUndefined x then y
  else if x < y then y
  else x

/-- The least of some values, an infinity where none of them is defined. -/
@[specialize] def least : List α → α
  | [] => infinity
  | x :: rest =>
    let m := rest.foldl minimum x
    if isUndefined m then infinity else m

/-- The greatest of some values, a negative infinity where none of them is defined. -/
@[specialize] def greatest : List α → α
  | [] => -infinity
  | x :: rest =>
    let m := rest.foldl maximum x
    if isUndefined m then -infinity else m

/-- The value, or the end of the interval `[low, high]` that it exceeds. -/
@[inline] def clamp (low high x : α) : α :=
  if x < low then low
  else if high < x then high
  else x

/-- The sum from left to right. It starts from the zero that leaves every summand as it is. -/
@[specialize] def total (xs : List α) : α :=
  xs.foldl (· + ·) (-0.0)

end Scalar

end Significance
