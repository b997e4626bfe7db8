import Significance.Distribution.Gamma

/-!
# The regularised incomplete beta function

The continued fraction of the incomplete beta function, on the side of the mean where it converges
fast, times the power function before it.
-/

namespace Significance.Distribution.Beta

/-- Two successive fractions closer than this end the expansion. -/
def precision : Float := 1.1102230246251565e-16

/-- What stands in for a vanishing denominator. -/
def tiny : Float := 2.2250738585072014e-308 / precision

/-- Keeps a denominator away from zero. -/
def nonzero (x : Float) : Float :=
  if x.abs < tiny then tiny else x

/-- The continued fraction for `(a, b, x)` from its step `m` on: `c` and `d` are the running
numerator and inverse denominator, `h` is the value so far. -/
def fraction (a b x : Float) : Nat → Float → Float → Float → Float → Float
  | 0, _, _, _, h => h
  | fuel + 1, m, c, d, h =>
    let m2 := 2.0 * m
    let even := m * (b - m) * x / ((a - 1.0 + m2) * (a + m2))
    let d := nonzero (1.0 + even * d)
    let c := nonzero (1.0 + even / c)
    let d := 1.0 / d
    let h := h * d * c
    let odd := -(a + m) * (a + b + m) * x / ((a + m2) * (a + 1.0 + m2))
    let d := nonzero (1.0 + odd * d)
    let c := nonzero (1.0 + odd / c)
    let d := 1.0 / d
    let change := d * c
    let h := h * change
    if (change - 1.0).abs ≤ precision then h
    else fraction a b x fuel (m + 1.0) c d h

/-- `x ^ a * (1 - x) ^ b` over the beta function of `a` and `b`. -/
def power (a b x : Float) : Float :=
  Float.exp (Gamma.log (a + b) - Gamma.log a - Gamma.log b + a * Float.log x
    + b * Float.log (1.0 - x))

/-- The regularised incomplete beta function at `x` in `[0, 1]`, for positive `a` and `b`. -/
def regularized (a b x : Float) : Float :=
  if x ≤ 0.0 then 0.0
  else if 1.0 ≤ x then 1.0
  else
    let factor := power a b x
    let expand (a b x : Float) : Float :=
      let d := 1.0 / nonzero (1.0 - (a + b) * x / (a + 1.0))
      factor * fraction a b x 140 1.0 1.0 d d / a
    if (a + 1.0) / (a + b + 2.0) ≤ x then 1.0 - expand b a (1.0 - x) else expand a b x

end Significance.Distribution.Beta
