import Significance.Distribution.Beta

/-!
# Critical values of the t distribution
-/

namespace Significance.Distribution.Student

/-- The probability that a `t` variable with `df` degrees of freedom exceeds `t ≥ 0` in size. -/
def twoTails (t df : Float) : Float :=
  let square := t * t
  if square < df then 1.0 - Beta.regularized 0.5 (df / 2.0) (square / (df + square))
  else Beta.regularized (df / 2.0) 0.5 (df / (df + square))

/-- Doubles a bound until the two tails beyond it are no larger than `p`. -/
def bound (p df : Float) : Nat → Float → Float
  | 0, high => high
  | fuel + 1, high => if p < twoTails high df then bound p df fuel (2.0 * high) else high

/-- Halves an interval at whose ends the two tails are above and not above `p`. -/
def bisect (p df : Float) : Nat → Float → Float → Float
  | 0, low, high => (low + high) / 2.0
  | fuel + 1, low, high =>
    let middle := (low + high) / 2.0
    if middle ≤ low || high ≤ middle then middle
    else if p < twoTails middle df then bisect p df fuel middle high
    else bisect p df fuel low middle

/-- The value that a `t` variable stays within with probability `confidence`. It is infinite for a
probability that half of it and one half add up to one. -/
def critical (confidence df : Float) : Float :=
  if df ≤ 0.0 || !(0.0 ≤ confidence && confidence < 1.0) || !df.isFinite then 0.0 / 0.0
  else
    let p := 2.0 * (1.0 - (0.5 + confidence / 2.0))
    if 1.0 ≤ p then 0.0
    else if p ≤ 0.0 then 1.0 / 0.0
    else bisect p df 200 0.0 (bound p df 1024 1.0)

end Significance.Distribution.Student
