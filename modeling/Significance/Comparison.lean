import Significance.Decimal.Order
import Significance.Descriptive
import Significance.Deviation
import Significance.Distribution
import Significance.Text.Parenthesis

/-!
# Grouped comparisons

The mean of a metric with an interval of confidence for every level of one field or, with a second
field, for every pair of levels that occurs.
-/

namespace Significance

/-- What a comparison does with its metric and with the labels of the second field. -/
structure Comparison.Options (α : Type) where
  normalize : Bool
  reference : Option α
  sense : Sense
  cleanLabels : Bool

/-- The summary of the values of one group. -/
structure GroupSummary (α : Type) where
  x : String
  hue : Option String
  count : Nat
  mean : α
  deviation : α
  lower : α
  upper : α

/-- The groups of a comparison, by hue and then by `x`. -/
structure Comparison (α : Type) where
  xField : String
  yField : String
  hueField : Option String
  normalized : Bool
  xLevels : List String
  hueLevels : List String
  groups : List (GroupSummary α)

namespace Comparison

variable {α : Type}

/-- The probability that an interval of confidence covers the mean. -/
def confidence [Scalar α] : α := 0.95

/-- The groups of one hue, or those without one. -/
def series (comparison : Comparison α) (hue : Option String) : List (GroupSummary α) :=
  comparison.groups.filter fun group => group.hue = hue

/-- The distinct labels: in the order of their numbers where all are written numbers, otherwise in
the order of their characters, which also decides between equal numbers. -/
def levelOrder (labels : List String) : List String :=
  let levels := Text.sortedDistinct labels
  match levels.mapM Decimal.rank? with
  | some ranks =>
    ((ranks.zip levels).mergeSort fun a b => a.1 ≤ b.1).map (·.2)
  | none => levels

/-- Half the length of the interval of confidence around the mean of `n` values. -/
def halfInterval [Scalar α] (d : Distribution α) (n : Nat) (deviation : α) : α :=
  d.studentWithin confidence (Scalar.ofNat (n - 1)) * deviation / Scalar.sqrt (Scalar.ofNat n)

/-- The summary of some values. A single value has no interval. -/
def summarize [Scalar α] (d : Distribution α) (x : String) (hue : Option String)
    (values : List α) : GroupSummary α :=
  let n := values.length
  let mean := Descriptive.mean values
  let deviation := Descriptive.standardDeviation values
  let half := if 2 ≤ n then halfInterval d n deviation else Scalar.undefined
  { x, hue, count := n, mean, deviation, lower := mean - half, upper := mean + half }

/-- A record as a comparison sees it: its label, its hue and its value. -/
structure Point (α : Type) where
  x : String
  hue : Option String
  y : α

/-- The values of the points of one group, in record order. -/
def groupValues (points : List (Point α)) (x : String) (hue : Option String) : List α :=
  points.filterMap fun point => if point.x = x ∧ point.hue = hue then some point.y else none

/-- The summaries of all groups that occur. -/
def summaries [Scalar α] (d : Distribution α) (points : List (Point α))
    (xLevels : List String) (hues : List (Option String)) : List (GroupSummary α) :=
  hues.flatMap fun hue =>
    xLevels.filterMap fun x =>
      match groupValues points x hue with
      | [] => none
      | values => some (summarize d x hue values)

/-- The hue of every record; without a field for it there is none. -/
def hueLabels [Scalar α] (data : Dataset α) (field : Option String) (clean : Bool) :
    Except (Error α) (List (Option String)) :=
  match field with
  | none => .ok (List.replicate data.size none)
  | some name => do
    let labels ← data.categoricalColumn name
    return labels.map fun label => some (if clean then Text.withoutParentheses label else label)

/-- Compares the field `y` over the levels of the field `x`. -/
def run [Scalar α] (d : Distribution α) (data : Dataset α) (x y : String)
    (hue : Option String) (options : Options α) : Except (Error α) (Comparison α) := do
  data.requireFields ([x, y] ++ hue.toList)
  let (prepared, yField) ←
    if options.normalize then
      Deviation.normalize data y options.reference options.sense
    else
      pure (data, y)
  let values ← prepared.numericColumn yField
  let xs ← prepared.categoricalColumn x
  let hues ← hueLabels prepared hue options.cleanLabels
  let points := (xs.zip (hues.zip values)).map fun (x, hue, y) => (⟨x, hue, y⟩ : Point α)
  let xLevels := levelOrder xs
  let hueLevels := levelOrder (hues.filterMap id)
  let keys := if hue.isSome then hueLevels.map some else [none]
  return { xField := x, yField, hueField := hue, normalized := options.normalize, xLevels,
           hueLevels, groups := summaries d points xLevels keys }

end Comparison

end Significance
