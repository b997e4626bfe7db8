import Significance.Distribution.Beta
import Significance.Scalar.Binary64

/-!
# The upper tail of the F distribution

Which statistics have a tail by convention is told apart from how the others' is computed.
-/

namespace Significance.Distribution.Fisher

/-- The probability that an `F` variable exceeds `f`, given how it is found for a positive number.
An infinite statistic has the tail zero and one that is not positive the tail one; without positive
degrees of freedom, or a defined statistic, the tail is undefined. -/
@[specialize] def above? {α : Type} [Scalar α] (positive? : α → α → α → Option α)
    (f df1 df2 : α) : Option α :=
  if Scalar.isUndefined f || df1 ≤ 0.0 || df2 ≤ 0.0 then some Scalar.undefined
  else if Scalar.infinity ≤ f then some 0.0
  else if f ≤ 0.0 then some 1.0
  else (positive? f df1 df2).map (Scalar.clamp 0.0 1.0)

/-- The tail beyond a positive number, by the incomplete beta function. There is none where
`df1 * f` exceeds every number. -/
def positive? (f df1 df2 : Float) : Option Float :=
  if !df1.isFinite || !df2.isFinite then some (0.0 / 0.0)
  else
    let between := df1 * f
    let x := 1.0 - between / (between + df2)
    if x.isNaN then none
    else some (Beta.regularized (df2 / 2.0) (df1 / 2.0) x)

/-- The probability that an `F` variable with `df1` and `df2` degrees of freedom exceeds `f`. -/
def tail? (f df1 df2 : Float) : Option Float :=
  above? positive? f df1 df2

end Significance.Distribution.Fisher
