import Significance.Term
import Significance.Text.Column

/-!
# Tables of an analysis of variance

A table has a row for every term of the model and one for the residual. A row is significant when
its p-value is below the level of significance; an undefined p-value is not.
-/

namespace Significance

/-- The level of significance of every test. -/
def significanceLevel {α : Type} [Scalar α] : α := 0.05

/-- The row of a term. -/
structure Effect (α : Type) where
  term : Term
  sumSquares : α
  df : Nat
  f : α
  p : α

namespace Effect

variable {α : Type}

def name (effect : Effect α) : String :=
  effect.term.name

def isMain (effect : Effect α) : Bool :=
  effect.term.isMain

/-- Whether the p-value is below the level of significance. -/
def isSignificant [Scalar α] (effect : Effect α) : Bool :=
  effect.p < significanceLevel

/-- The sum of squares per degree of freedom. -/
def meanSquare [Scalar α] (effect : Effect α) : α :=
  if effect.df = 0 then Scalar.undefined else effect.sumSquares / Scalar.ofNat effect.df

end Effect

/-- The row of what the model leaves unexplained. -/
structure Residual (α : Type) where
  sumSquares : α
  df : Nat

/-- How the variance was decomposed. -/
inductive Decomposition
  | oneWay
  | multiWay
  deriving DecidableEq, Repr

/-- The heading of a decomposition. -/
def Decomposition.title : Decomposition → String
  | .oneWay => "One-Way ANOVA"
  | .multiWay => "Multi-Way ANOVA"

/-- A decomposition of the variance of a target over model terms. -/
structure VarianceTable (α : Type) where
  kind : Decomposition
  target : String
  formula : String
  effects : List (Effect α)
  residual : Residual α
  observations : Nat

namespace VarianceTable

variable {α : Type}

/-- The row of a term name. -/
def effect? (table : VarianceTable α) (name : String) : Option (Effect α) :=
  table.effects.find? fun effect => effect.name = name

/-- The significant rows. -/
def significant [Scalar α] (table : VarianceTable α) : List (Effect α) :=
  table.effects.filter Effect.isSignificant

/-- The name of the residual row. -/
def residualName : String := "Residual"

/-- The width of the first column, for the longest name in bytes. -/
def nameWidth (table : VarianceTable α) : Nat :=
  (table.effects.map fun effect => effect.name.utf8ByteSize).foldl max residualName.utf8ByteSize

/-- A line of the table. -/
def line (width : Nat) (name sumSquares df f p : String) : String :=
  " ".intercalate
    [Text.left width name, Text.right 14 sumSquares, Text.right 6 df, Text.right 12 f,
      Text.right 12 p] ++ "\n"

/-- The table as text, every line ended. -/
def text (table : VarianceTable Float) : String :=
  let line := line table.nameWidth
  let rows := table.effects.map fun effect =>
    line effect.name (Decimal.fixed 6 effect.sumSquares) (toString effect.df)
      (Decimal.fixed 6 effect.f) (Decimal.scientific 6 effect.p)
  let residual := line residualName (Decimal.fixed 6 table.residual.sumSquares)
    (toString table.residual.df) "NaN" "NaN"
  line "" "sum_sq" "df" "F" "PR(>F)" ++ String.join rows ++ residual

end VarianceTable

end Significance
