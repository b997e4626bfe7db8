import Significance.Deviation
import Significance.PostHoc
import Significance.Variance

/-!
# Analyses

An analysis replaces its target by the relative deviation, unless told not to, decomposes the
variance, and compares the levels of the significant factors.
-/

namespace Significance

/-- What an analysis does with its target. -/
structure Analysis.Options (α : Type) where
  normalize : Bool
  reference : Option α
  sense : Sense

/-- The result of an analysis. -/
structure Analysis (α : Type) where
  target : String
  /-- The field that was analysed: the target, or the field of its relative deviations. -/
  field : String
  normalized : Bool
  reference : Option α
  factors : List String
  table : VarianceTable α
  postHoc : PostHoc α
  /-- The records with the field that was analysed. -/
  data : Dataset α

namespace Analysis

variable {α : Type}

/-- The data with the field to analyse, its name, and the reference of a relative deviation. -/
def prepare [Scalar α] (data : Dataset α) (target : String) (options : Options α) :
    Except (Error α) (Dataset α × String × Option α) := do
  if options.normalize then
    let values ← data.numericColumn target
    let r ← Deviation.reference target values options.reference options.sense
    let (deviations, field) ← Deviation.normalize data target (some r) options.sense
    return (deviations, field, some r)
  else
    return (data, target, none)

/-- Analyses a field of the data over some factors. -/
def run [Scalar α] (d : Distribution α) (data : Dataset α) (target : String)
    (factors : List String) (options : Options α) : Except (Error α) (Analysis α) := do
  let (prepared, field, reference) ← prepare data target options
  let table ← Variance.analyze d prepared field factors
  return { target, field, normalized := options.normalize, reference, factors, table
           postHoc := PostHoc.run d prepared field table factors, data := prepared }

/-- The verdict on the effect of a single factor. -/
def conclusion? [Scalar α] (analysis : Analysis α) : Option String :=
  match analysis.table.kind, analysis.table.effects with
  | .oneWay, effect :: _ =>
    let level := Scalar.text (significanceLevel : α)
    some <|
      if effect.isSignificant then
        s!"Significant difference found between groups (p < {level})"
      else
        s!"No significant difference found between groups (p >= {level})"
  | _, _ => none

/-- What was analysed, and how it was normalized. -/
def fieldText (analysis : Analysis Float) : String :=
  if analysis.normalized then
    match analysis.reference with
    | some r => s!"{analysis.field} (RPD, reference " ++ Decimal.plain r ++ ")"
    | none => s!"{analysis.field} (RPD)"
  else analysis.field

/-- The decomposition as lines of text. A single factor has its test spelled out. -/
def decompositionText (analysis : Analysis Float) : String :=
  match analysis.table.kind, analysis.table.effects with
  | .oneWay, effect :: _ =>
    "F-statistic: " ++ Decimal.fixed 4 effect.f ++ "\n"
      ++ "p-value: " ++ Decimal.scientific 4 effect.p ++ "\n"
      ++ s!"Degrees of freedom: between={effect.df}, within={analysis.table.residual.df}\n"
      ++ String.join (analysis.conclusion?.toList.map fun verdict => verdict ++ "\n")
  | _, _ => "ANOVA Table:\n" ++ analysis.table.text

/-- The comparisons as lines of text, under a heading if there are any. -/
def postHocText (analysis : Analysis Float) : String :=
  let entryText (entry : FactorOutcome Float) : String :=
    match entry.outcome with
    | .completed test => test.text ++ "\n"
    | .skipped reason => s!"{entry.factor}: skipped ({reason})\n"
  if analysis.postHoc.entries.isEmpty then ""
  else
    "\nPost-hoc Analysis\n-----------------\n"
      ++ String.join (analysis.postHoc.entries.map entryText)

/-- The report of an analysis made at a given time. -/
def text (analysis : Analysis Float) (time : String) : String :=
  "ANOVA Analysis Summary\n=====================\n"
    ++ s!"Generated at: {time}\n"
    ++ s!"Analysis type: {analysis.table.kind.title}\n"
    ++ s!"Target variable: {analysis.target}\n"
    ++ s!"Analyzed field: {analysis.fieldText}\n"
    ++ "Grouping variables: " ++ ", ".intercalate analysis.factors ++ "\n"
    ++ s!"Model: {analysis.table.formula}\n\n"
    ++ analysis.decompositionText
    ++ analysis.postHocText

/-- A named analysis among several. -/
structure Job (α : Type) where
  name : String
  data : Dataset α
  target : String
  factors : List String
  options : Options α

/-- Runs every job on its own. -/
def batch [Scalar α] (d : Distribution α) (jobs : List (Job α)) :
    List (String × Except (Error α) (Analysis α)) :=
  jobs.map fun job => (job.name, run d job.data job.target job.factors job.options)

end Analysis

end Significance
