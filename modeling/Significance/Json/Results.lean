import Significance.Analysis
import Significance.Comparison
import Significance.Json.Data

/-!
# Requests and results in JSON

Every structure is an object of its fields in a fixed order, and every choice a word; what a choice
carries stands under that word, or beside it where the choice is the status of a comparison.
-/

namespace Significance

open Json (Source Tree)

/-- Texts as a document. -/
def Json.Tree.strings (texts : List String) : Tree :=
  .array (texts.map .string)

/-- A value or null as a document. -/
def Json.Tree.nullable {β : Type} (tree : β → Tree) : Option β → Tree
  | some x => tree x
  | none => .null

/-- The texts that a document holds. -/
def Json.Source.texts? (source : Source) : Option (List String) :=
  source.list? Source.text?

namespace Sense

def toJson : Sense → Tree
  | .lowerIsBetter => .string "LowerIsBetter"
  | .higherIsBetter => .string "HigherIsBetter"

def ofJson? (source : Source) : Option Sense := do
  match ← source.word? with
  | "LowerIsBetter" => return .lowerIsBetter
  | "HigherIsBetter" => return .higherIsBetter
  | _ => none

end Sense

namespace Decomposition

def toJson : Decomposition → Tree
  | .oneWay => .string "OneWay"
  | .multiWay => .string "MultiWay"

def ofJson? (source : Source) : Option Decomposition := do
  match ← source.word? with
  | "OneWay" => return .oneWay
  | "MultiWay" => return .multiWay
  | _ => none

end Decomposition

namespace Request

def toJson : Request → Tree
  | .oneWay factor => .object [("OneWay", .object [("factor", .string factor)])]
  | .multiWay factors => .object [("MultiWay", .object [("factors", .strings factors)])]

def ofJson? (source : Source) : Option Request := do
  let (word, content) ← source.single?
  match word with
  | "OneWay" =>
    match ← content.fieldsOf? ["factor"] with
    | [factor] => return .oneWay (← Source.required? Source.text? factor)
    | _ => none
  | "MultiWay" =>
    match ← content.fieldsOf? ["factors"] with
    | [factors] => return .multiWay (← Source.required? Source.texts? factors)
    | _ => none
  | _ => none

end Request

namespace Analysis.Options

def toJson (options : Analysis.Options Float) : Tree :=
  .object [("normalize", .bool options.normalize),
    ("reference", .nullable .double options.reference), ("sense", options.sense.toJson)]

def ofJson? (source : Source) : Option (Analysis.Options Float) := do
  match ← source.fieldsOf? ["normalize", "reference", "sense"] with
  | [normalize, reference, sense] =>
    return { normalize := ← Source.required? Source.bool? normalize
             reference := ← Source.optional? Source.double? reference
             sense := ← Source.required? Sense.ofJson? sense }
  | _ => none

end Analysis.Options

namespace Comparison.Options

def toJson (options : Comparison.Options Float) : Tree :=
  .object [("normalize", .bool options.normalize),
    ("reference", .nullable .double options.reference), ("sense", options.sense.toJson),
    ("clean_labels", .bool options.cleanLabels)]

def ofJson? (source : Source) : Option (Comparison.Options Float) := do
  match ← source.fieldsOf? ["normalize", "reference", "sense", "clean_labels"] with
  | [normalize, reference, sense, cleanLabels] =>
    return { normalize := ← Source.required? Source.bool? normalize
             reference := ← Source.optional? Source.double? reference
             sense := ← Source.required? Sense.ofJson? sense
             cleanLabels := ← Source.required? Source.bool? cleanLabels }
  | _ => none

end Comparison.Options

namespace Effect

def toJson (effect : Effect Float) : Tree :=
  .object [("term", effect.term.toJson), ("sum_sq", .double effect.sumSquares),
    ("df", .natural effect.df), ("f_statistic", .double effect.f), ("p_value", .double effect.p)]

def ofJson? (source : Source) : Option (Effect Float) := do
  match ← source.fieldsOf? ["term", "sum_sq", "df", "f_statistic", "p_value"] with
  | [term, sumSquares, df, f, p] =>
    return { term := ← Source.required? Term.ofJson? term
             sumSquares := ← Source.required? Source.double? sumSquares
             df := ← Source.required? Source.natural? df
             f := ← Source.required? Source.double? f
             p := ← Source.required? Source.double? p }
  | _ => none

end Effect

namespace Residual

def toJson (residual : Residual Float) : Tree :=
  .object [("sum_sq", .double residual.sumSquares), ("df", .natural residual.df)]

def ofJson? (source : Source) : Option (Residual Float) := do
  match ← source.fieldsOf? ["sum_sq", "df"] with
  | [sumSquares, df] =>
    return { sumSquares := ← Source.required? Source.double? sumSquares
             df := ← Source.required? Source.natural? df }
  | _ => none

end Residual

namespace VarianceTable

def toJson (table : VarianceTable Float) : Tree :=
  .object [("kind", table.kind.toJson), ("target", .string table.target),
    ("formula", .string table.formula), ("effects", .array (table.effects.map Effect.toJson)),
    ("residual", table.residual.toJson), ("n_obs", .natural table.observations)]

def ofJson? (source : Source) : Option (VarianceTable Float) := do
  match ← source.fieldsOf? ["kind", "target", "formula", "effects", "residual", "n_obs"] with
  | [kind, target, formula, effects, residual, observations] =>
    return { kind := ← Source.required? Decomposition.ofJson? kind
             target := ← Source.required? Source.text? target
             formula := ← Source.required? Source.text? formula
             effects := ← Source.required? (Source.list? Effect.ofJson?) effects
             residual := ← Source.required? Residual.ofJson? residual
             observations := ← Source.required? Source.natural? observations }
  | _ => none

end VarianceTable

namespace PairComparison

def toJson (c : PairComparison Float) : Tree :=
  .object [("group1", .string c.first), ("group2", .string c.second),
    ("mean_diff", .double c.difference), ("p_adj", .double c.p), ("lower", .double c.lower),
    ("upper", .double c.upper), ("reject", .bool c.reject)]

def ofJson? (source : Source) : Option (PairComparison Float) := do
  match ← source.fieldsOf?
    ["group1", "group2", "mean_diff", "p_adj", "lower", "upper", "reject"] with
  | [first, second, difference, p, lower, upper, reject] =>
    return { first := ← Source.required? Source.text? first
             second := ← Source.required? Source.text? second
             difference := ← Source.required? Source.double? difference
             p := ← Source.required? Source.double? p
             lower := ← Source.required? Source.double? lower
             upper := ← Source.required? Source.double? upper
             reject := ← Source.required? Source.bool? reject }
  | _ => none

end PairComparison

namespace TukeyTest

/-- The fields of a test, in their order. -/
def jsonFields (test : TukeyTest Float) : List (String × Tree) :=
  [("factor", .string test.factor), ("alpha", .double test.alpha),
    ("levels", .strings test.levels), ("group_sizes", .array (test.sizes.map .natural)),
    ("group_means", .array (test.means.map .double)), ("pooled_variance", .double test.variance),
    ("df_resid", .natural test.df), ("q_critical", .double test.critical),
    ("comparisons", .array (test.comparisons.map PairComparison.toJson))]

def toJson (test : TukeyTest Float) : Tree :=
  .object test.jsonFields

def ofJson? (source : Source) : Option (TukeyTest Float) := do
  match ← source.fieldsOf?
    ["factor", "alpha", "levels", "group_sizes", "group_means", "pooled_variance", "df_resid",
      "q_critical", "comparisons"] with
  | [factor, alpha, levels, sizes, means, variance, df, critical, comparisons] =>
    return { factor := ← Source.required? Source.text? factor
             alpha := ← Source.required? Source.double? alpha
             levels := ← Source.required? Source.texts? levels
             sizes := ← Source.required? (Source.list? Source.natural?) sizes
             means := ← Source.required? (Source.list? Source.double?) means
             variance := ← Source.required? Source.double? variance
             df := ← Source.required? Source.natural? df
             critical := ← Source.required? Source.double? critical
             comparisons :=
               ← Source.required? (Source.list? PairComparison.ofJson?) comparisons }
  | _ => none

end TukeyTest

namespace Outcome

def toJson : Outcome Float → Tree
  | .completed test => .object (("status", .string "completed") :: test.jsonFields)
  | .skipped reason => .object [("status", .string "skipped"), ("reason", .string reason)]

/-- The status of an outcome, and a document of what stands beside it. -/
def status? : Source → Option (String × Source)
  | .object fields => do
    let isStatus (field : Option String × Source) : Bool := field.1 = some "status"
    match fields.filter isStatus with
    | [(_, status)] => return (← status.text?, .object (fields.filter fun f => !isStatus f))
    | _ => none
  | .array (status :: rest) => do return (← status.text?, .array rest)
  | _ => none

/-- The outcome that a document holds. It must have a meaning throughout, down to `depth`. -/
def ofJson? (depth : Nat) (source : Source) : Option (Outcome Float) := do
  if !source.isSound depth then none
  let (status, content) ← status? source
  match status with
  | "completed" => return .completed (← TukeyTest.ofJson? content)
  | "skipped" =>
    match ← content.fieldsOf? ["reason"] with
    | [reason] => return .skipped (← Source.required? Source.text? reason)
    | _ => none
  | _ => none

end Outcome

namespace FactorOutcome

def toJson (entry : FactorOutcome Float) : Tree :=
  .object [("factor", .string entry.factor), ("outcome", entry.outcome.toJson)]

/-- The entry that a document holds, at a given depth from the limit. -/
def ofJson? (depth : Nat) (source : Source) : Option (FactorOutcome Float) := do
  match ← source.fieldsOf? ["factor", "outcome"] with
  | [factor, outcome] =>
    return { factor := ← Source.required? Source.text? factor
             outcome := ← Source.required? (Outcome.ofJson? (depth - 1)) outcome }
  | _ => none

end FactorOutcome

namespace PostHoc

def toJson (results : PostHoc Float) : Tree :=
  .array (results.entries.map FactorOutcome.toJson)

/-- The outcomes that a document holds, at a given depth from the limit. -/
def ofJson? (depth : Nat) (source : Source) : Option (PostHoc Float) :=
  (source.list? (FactorOutcome.ofJson? (depth - 1))).map PostHoc.mk

end PostHoc

namespace GroupSummary

def toJson (group : GroupSummary Float) : Tree :=
  .object [("x", .string group.x), ("hue", .nullable .string group.hue),
    ("count", .natural group.count), ("mean", .double group.mean),
    ("std_dev", .double group.deviation), ("ci_lower", .double group.lower),
    ("ci_upper", .double group.upper)]

def ofJson? (source : Source) : Option (GroupSummary Float) := do
  match ← source.fieldsOf?
    ["x", "hue", "count", "mean", "std_dev", "ci_lower", "ci_upper"] with
  | [x, hue, count, mean, deviation, lower, upper] =>
    return { x := ← Source.required? Source.text? x
             hue := ← Source.optional? Source.text? hue
             count := ← Source.required? Source.natural? count
             mean := ← Source.required? Source.double? mean
             deviation := ← Source.required? Source.double? deviation
             lower := ← Source.required? Source.double? lower
             upper := ← Source.required? Source.double? upper }
  | _ => none

end GroupSummary

namespace Comparison

def toJson (comparison : Comparison Float) : Tree :=
  .object [("x_field", .string comparison.xField), ("y_field", .string comparison.yField),
    ("hue_field", .nullable .string comparison.hueField),
    ("normalized", .bool comparison.normalized), ("x_levels", .strings comparison.xLevels),
    ("hue_levels", .strings comparison.hueLevels),
    ("groups", .array (comparison.groups.map GroupSummary.toJson))]

def ofJson? (source : Source) : Option (Comparison Float) := do
  match ← source.fieldsOf?
    ["x_field", "y_field", "hue_field", "normalized", "x_levels", "hue_levels", "groups"] with
  | [xField, yField, hueField, normalized, xLevels, hueLevels, groups] =>
    return { xField := ← Source.required? Source.text? xField
             yField := ← Source.required? Source.text? yField
             hueField := ← Source.optional? Source.text? hueField
             normalized := ← Source.required? Source.bool? normalized
             xLevels := ← Source.required? Source.texts? xLevels
             hueLevels := ← Source.required? Source.texts? hueLevels
             groups := ← Source.required? (Source.list? GroupSummary.ofJson?) groups }
  | _ => none

end Comparison

/-- An analysis made at a given time as a document. The data are not part of it. -/
def Analysis.toJson (analysis : Analysis Float) (time : String) : Tree :=
  .object [("target", .string analysis.target), ("analyzed_field", .string analysis.field),
    ("normalized", .bool analysis.normalized),
    ("reference", .nullable .double analysis.reference), ("factors", .strings analysis.factors),
    ("anova", analysis.table.toJson), ("post_hoc", analysis.postHoc.toJson),
    ("generated_at", .string time)]

end Significance
