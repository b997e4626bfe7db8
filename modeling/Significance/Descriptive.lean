import Significance.Scalar

/-!
# Descriptive statistics

Means, deviations and variances of groups of values. What a group is too small for is undefined.
-/

namespace Significance.Descriptive

variable {α : Type} [Scalar α]

/-- The arithmetic mean. -/
@[specialize] def mean (values : List α) : α :=
  if values.isEmpty then Scalar.undefined
  else Scalar.total values / Scalar.ofNat values.length

/-- The sum of the squared deviations from a centre. -/
@[specialize] def squaredDeviations (centre : α) (values : List α) : α :=
  Scalar.total (values.map fun v => Scalar.square (v - centre))

/-- The sum of the squared deviations from the mean. -/
def variation (values : List α) : α :=
  squaredDeviations (mean values) values

/-- The variance of a sample of two values at least. -/
def variance (values : List α) : α :=
  if values.length < 2 then Scalar.undefined
  else variation values / Scalar.ofNat (values.length - 1)

/-- The standard deviation of a sample of two values at least. -/
def standardDeviation (values : List α) : α :=
  Scalar.sqrt (variance values)

/-- The variance within the groups and its degrees of freedom, the number of values less the number
of groups. -/
def pooledVariance (groups : List (List α)) : α × Nat :=
  let size := groups.flatten.length
  if size ≤ groups.length then (Scalar.undefined, 0)
  else
    let df := size - groups.length
    (Scalar.total (groups.map variation) / Scalar.ofNat df, df)

end Significance.Descriptive
