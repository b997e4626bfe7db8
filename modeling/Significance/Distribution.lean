import Significance.Distribution.Fisher
import Significance.Distribution.Normal
import Significance.Distribution.Student
import Significance.Distribution.StudentizedRange
import Significance.Scalar.Binary64

/-!
# The distributions behind the tests

The tests refer to four functions of probability theory. They take them as one argument, so that
what a test decides can be told apart from how exactly its distribution is computed.
-/

namespace Significance

/-- The distribution functions that the tests refer to. -/
structure Distribution (α : Type) where
  /-- The probability that an `F` variable exceeds the first argument, from its two degrees of
  freedom; there is none where the statistic is too large. -/
  fisherAbove? : α → α → α → Option α
  /-- What a `t` variable stays within, from the probability of that and its degrees of freedom. -/
  studentWithin : α → α → α
  /-- The probability that the studentized range is below the first argument, from the number of
  groups and the degrees of freedom. -/
  rangeBelow : α → α → α → α
  /-- The quantile of the studentized range, from the same. -/
  rangeQuantile : α → α → α → α

namespace Distribution

/-- The functions as computed with doubles. -/
def standard : Distribution Float where
  fisherAbove? := Fisher.tail?
  studentWithin := Student.critical
  rangeBelow := StudentizedRange.below Normal.cdf Gamma.log
  rangeQuantile := StudentizedRange.quantile Normal.cdf Gamma.log

end Distribution

end Significance
