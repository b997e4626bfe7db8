import Significance.Delimited
import Significance.FileStem
import Significance.Json.Results

/-!
# Report files

The files of an analysis: its table, the comparisons of every factor that were completed, a summary
to read, and all of it in JSON. A comparison over groups is a file of its own.
-/

namespace Significance.Report

/-- The time of a report, as it is read and as it is stored. -/
structure Moment where
  clock : String
  stamp : String

/-- A table as comma-separated text, the residual last. -/
def tableText (table : VarianceTable Float) : String :=
  let header := ["term", "sum_sq", "df", "F", "PR(>F)"]
  let rows := table.effects.map fun effect =>
    [effect.name, Decimal.plain effect.sumSquares, toString effect.df, Decimal.plain effect.f,
      Decimal.plain effect.p]
  let residual :=
    [VarianceTable.residualName, Decimal.plain table.residual.sumSquares,
      toString table.residual.df, "", ""]
  Delimited.written (header :: rows ++ [residual])

/-- The comparisons of one factor as comma-separated text. -/
def tukeyText (test : TukeyTest Float) : String :=
  let header := ["group1", "group2", "meandiff", "p-adj", "lower", "upper", "reject"]
  let rows := test.comparisons.map fun c =>
    [c.first, c.second, Decimal.fixed 4 c.difference, Decimal.fixed 4 c.p,
      Decimal.fixed 4 c.lower, Decimal.fixed 4 c.upper, decisionText c.reject]
  Delimited.written (header :: rows)

/-- A comparison over groups as comma-separated text. -/
def comparisonText (comparison : Comparison Float) : String :=
  let header :=
    [comparison.xField, comparison.hueField.getD "hue", "count", "mean", "std", "ci_lower",
      "ci_upper"]
  let rows := comparison.groups.map fun group =>
    [group.x, group.hue.getD "", toString group.count, Decimal.plain group.mean,
      Decimal.plain group.deviation, Decimal.plain group.lower, Decimal.plain group.upper]
  Delimited.written (header :: rows)

/-- The kinds of files that a program writes. -/
inductive Medium
  | delimited
  | plain
  deriving DecidableEq, Repr

/-- A file to be written. -/
structure Artifact where
  name : String
  content : String
  medium : Medium

/-- A factor with the comparisons of its levels. -/
abbrev CompletedTest := String × TukeyTest Float

/-- The factors whose comparisons were completed. -/
def completed (analysis : Analysis Float) : List CompletedTest :=
  analysis.postHoc.entries.filterMap fun entry => entry.test?.map (entry.factor, ·)

/-- The file of a table. -/
def tableArtifact (base : String) (analysis : Analysis Float) : Artifact :=
  { name := base ++ "_anova_table.csv", content := tableText analysis.table
    medium := .delimited }

/-- The files of completed comparisons, named for their factors. -/
def tukeyArtifacts (base : String) (tests : List CompletedTest) : List Artifact :=
  let stems := FileStem.unique (tests.map (·.1))
  (tests.zip stems).map fun ((_, test), stem) =>
    { name := base ++ "_tukey_" ++ stem ++ ".csv", content := tukeyText test
      medium := .delimited }

/-- The file of the summary. -/
def summaryArtifact (base : String) (time : Moment) (analysis : Analysis Float) : Artifact :=
  { name := base ++ "_anova_summary.txt", content := analysis.text time.clock, medium := .plain }

/-- The file of the whole analysis. -/
def jsonArtifact (base : String) (time : Moment) (analysis : Analysis Float) : Artifact :=
  { name := base ++ "_report.json", content := (analysis.toJson time.stamp).pretty
    medium := .plain }

/-- The files of an analysis in the order in which they are written. -/
def bundle (base : String) (time : Moment) (analysis : Analysis Float) : List Artifact :=
  tableArtifact base analysis :: tukeyArtifacts base (completed analysis)
    ++ [summaryArtifact base time analysis, jsonArtifact base time analysis]

end Significance.Report
