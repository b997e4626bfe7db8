import Significance.Descriptive
import Significance.Distribution
import Significance.Factor
import Significance.Text.Column

/-!
# Tukey's honestly significant differences

All differences between the level means of one factor, with one probability of error for all of
them together. Pairs stand in the order of the levels, and the difference is the second mean less
the first.
-/

namespace Significance

/-- The comparison of two levels. -/
structure PairComparison (α : Type) where
  first : String
  second : String
  difference : α
  p : α
  lower : α
  upper : α
  reject : Bool

/-- All comparisons of one factor. -/
structure TukeyTest (α : Type) where
  factor : String
  /-- The probability that some true null hypothesis is rejected. -/
  alpha : α
  levels : List String
  sizes : List Nat
  means : List α
  /-- The variance within the levels and its degrees of freedom. -/
  variance : α
  df : Nat
  critical : α
  comparisons : List (PairComparison α)

/-- A level with its size and its mean. -/
structure LevelSummary (α : Type) where
  level : String
  size : Nat
  mean : α

namespace TukeyTest

variable {α : Type}

/-- The comparison of two levels, in either order. -/
def comparison? (test : TukeyTest α) (a b : String) : Option (PairComparison α) :=
  test.comparisons.find? fun c =>
    (c.first = a && c.second = b) || (c.first = b && c.second = a)

/-- The comparisons that find a difference. -/
def rejected (test : TukeyTest α) : List (PairComparison α) :=
  test.comparisons.filter PairComparison.reject

/-- All pairs of an earlier and a later member. -/
def pairs {β : Type} : List β → List (β × β)
  | [] => []
  | x :: rest => rest.map (x, ·) ++ pairs rest

variable [Scalar α]

/-- The standard error of the difference of two means. -/
def standardError (variance : α) (a b : LevelSummary α) : α :=
  Scalar.sqrt
    (variance / 2.0 * (1.0 / Scalar.ofNat a.size + 1.0 / Scalar.ofNat b.size))

/-- Compares two of `k` levels. -/
def compare (d : Distribution α) (alpha : α) (k : Nat) (variance : α) (df : Nat) (critical : α)
    (a b : LevelSummary α) : PairComparison α :=
  let difference := b.mean - a.mean
  let error := standardError variance a b
  let below := d.rangeBelow (Scalar.abs difference / error) (Scalar.ofNat k) (Scalar.ofNat df)
  let p := Scalar.clamp 0.0 1.0 (1.0 - below)
  let margin := critical * error
  { first := a.level, second := b.level, difference, p, lower := difference - margin,
    upper := difference + margin, reject := p < alpha }

/-- Compares the levels of a factor by one value per record. There must be two levels at least,
with two values each, and some variance within them. -/
def run (d : Distribution α) (factor : Factor) (values : List α) (alpha : α) :
    Except (Error α) (TukeyTest α) := do
  let refuse (fault : PairFault α) : Except (Error α) Unit := .error (.pairs factor.name fault)
  if values.length ≠ factor.size then
    refuse (.valueCount values.length factor.size)
  if ¬(0.0 < alpha ∧ alpha < 1.0) then
    refuse (.significance alpha)
  let k := factor.levels.length
  if k < 2 then
    refuse (.levelCount k)
  let groups := factor.groups values
  match (factor.levels.zip groups).find? fun (_, group) => group.length < 2 with
  | some (level, group) => refuse (.levelSize level group.length)
  | none => pure ()
  let (variance, df) := Descriptive.pooledVariance groups
  if df < 2 then
    refuse (.residualDf df)
  if ¬(0.0 < variance) ∨ !Scalar.isFinite variance then
    refuse .noVariance
  let critical := d.rangeQuantile (1.0 - alpha) (Scalar.ofNat k) (Scalar.ofNat df)
  if !Scalar.isFinite critical then
    throw (.unstable (.criticalValue k df))
  let summaries := (factor.levels.zip groups).map fun (level, group) =>
    { level, size := group.length, mean := Descriptive.mean group : LevelSummary α }
  return { factor := factor.name, alpha, levels := factor.levels
           sizes := summaries.map LevelSummary.size
           means := summaries.map LevelSummary.mean
           variance, df, critical
           comparisons := (pairs summaries).map fun (a, b) =>
             compare d alpha k variance df critical a b }

end TukeyTest

/-- The word for a decision. -/
def decisionText (reject : Bool) : String :=
  if reject then "True" else "False"

namespace TukeyTest

/-- A line of the text of a test. -/
def line (width : Nat) (first second difference p lower upper reject : String) : String :=
  " ".intercalate
    [Text.left width first, Text.left width second, Text.right 10 difference, Text.right 7 p,
      Text.right 10 lower, Text.right 10 upper, Text.right 6 reject]

/-- The width of the level columns, for the longest level in bytes. -/
def levelWidth {α : Type} (test : TukeyTest α) : Nat :=
  (test.levels.map String.utf8ByteSize).foldl max "group1".utf8ByteSize

/-- The test as text, the last line not ended. -/
def text (test : TukeyTest Float) : String :=
  let line := line test.levelWidth
  let header := line "group1" "group2" "meandiff" "p-adj" "lower" "upper" "reject"
  let rows := test.comparisons.map fun c =>
    line c.first c.second (Decimal.fixed 4 c.difference) (Decimal.fixed 4 c.p)
      (Decimal.fixed 4 c.lower) (Decimal.fixed 4 c.upper) (decisionText c.reject)
  let title := "Multiple Comparison of Means - Tukey HSD, FWER=" ++ Decimal.fixed 2 test.alpha
    ++ " (" ++ test.factor ++ ")"
  let thin := Text.rule '-' header.length
  "\n".intercalate ([title, Text.rule '=' header.length, header, thin] ++ rows ++ [thin])

end TukeyTest

end Significance
