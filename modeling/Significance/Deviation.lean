import Significance.Dataset

/-!
# Relative percentage deviation

The deviation of a value from a reference, in percent of the reference. The reference is given, or
it is the best value observed.
-/

namespace Significance

/-- Which values of a metric are better. -/
inductive Sense
  | lowerIsBetter
  | higherIsBetter
  deriving DecidableEq, Repr

namespace Deviation

variable {α : Type} [Scalar α]

/-- The field that holds the deviations of a field. -/
def fieldName (target : String) : String :=
  target ++ "Rpd"

/-- The best of some values. An undefined value is no candidate; without candidates the result is
the infinity on the worse side. -/
def best (sense : Sense) (values : List α) : α :=
  match sense with
  | .lowerIsBetter => Scalar.least values
  | .higherIsBetter => Scalar.greatest values

/-- A reference that can be divided by. -/
def checkReference (target : String) (reference : α) : Except (Error α) α :=
  if Scalar.isZero reference then .error (.invalidReference target reference .zero)
  else if Scalar.isFinite reference then .ok reference
  else .error (.invalidReference target reference .notFinite)

/-- The reference of a field: the given one, or the best of its values. -/
def reference (target : String) (values : List α) (given : Option α) (sense : Sense) :
    Except (Error α) α :=
  match given with
  | some r => checkReference target r
  | none =>
    if values.isEmpty then .error (.emptyData (.referenceValues target))
    else checkReference target (best sense values)

/-- The remark on a reference below zero, which turns the signs of the deviations round. -/
def referenceRemark? (target : String) (reference : α) : Option String :=
  if reference < 0.0 then
    some ("Reference " ++ Scalar.text reference ++ " for '" ++ target
      ++ "' is negative; RPD signs are inverted")
  else none

/-- The relative deviation of every value, in percent. -/
def relative (values : List α) (reference : α) : List α :=
  values.map fun v => (v - reference) / reference * 100.0

/-- The dataset with the deviations of a field as a field of their own, and that field's name. -/
def normalize (data : Dataset α) (target : String) (given : Option α) (sense : Sense) :
    Except (Error α) (Dataset α × String) := do
  let values ← data.numericColumn target
  let r ← reference target values given sense
  let name := fieldName target
  return (← data.withNumericField name (relative values r), name)

end Deviation

end Significance
