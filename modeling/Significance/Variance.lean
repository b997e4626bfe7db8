import Significance.Descriptive
import Significance.Design
import Significance.Distribution
import Significance.LeastSquares
import Significance.VarianceTable

/-!
# Analysis of variance

One factor has the classical decomposition into a part between and a part within the groups.
Several factors have a linear model with all interactions, where the sum of squares of a term is
what it takes off the residual of the model with all the terms that do not include it.
-/

namespace Significance

/-- The factors that a decomposition is asked for. -/
inductive Request
  | oneWay (factor : String)
  | multiWay (factors : List String)
  deriving DecidableEq, Repr

namespace Request

/-- The request for some factors, which must be there and distinct. -/
def ofFactors {α : Type} (factors : List String) : Except (Error α) Request := do
  Term.checkFactors factors
  match factors with
  | [factor] => return .oneWay factor
  | factors => return .multiWay factors

/-- The factors in the order of the request. -/
def factors : Request → List String
  | .oneWay factor => [factor]
  | .multiWay factors => factors

/-- The decomposition that answers the request. -/
def kind : Request → Decomposition
  | .oneWay _ => .oneWay
  | .multiWay _ => .multiWay

end Request

namespace Variance

variable {α : Type} [Scalar α]

/-- The ratio of the mean square of an effect to that of the residual. Over a residual of zero it
is infinite or, where the effect is zero as well, undefined. -/
def ratio (sumSquares : α) (df : Nat) (residual : Residual α) : α :=
  let meanSquare := sumSquares / Scalar.ofNat df
  let error := residual.sumSquares / Scalar.ofNat residual.df
  if 0.0 < error then meanSquare / error
  else if 0.0 < meanSquare then Scalar.infinity
  else Scalar.undefined

/-- The row of a term, tested against the residual. -/
def test (d : Distribution α) (term : Term) (sumSquares : α) (df : Nat) (residual : Residual α) :
    Except (Error α) (Effect α) :=
  if df = 0 ∨ residual.df = 0 then
    .ok { term, sumSquares, df, f := Scalar.undefined, p := Scalar.undefined }
  else
    let f := ratio sumSquares df residual
    match d.fisherAbove? f (Scalar.ofNat df) (Scalar.ofNat residual.df) with
    | some p => .ok { term, sumSquares, df, f, p }
    | none => .error .undefinedTail

/-- The sum over the groups of their size times the squared distance of their mean from a
centre. -/
@[specialize] def between (centre : α) (groups : List (List α)) : α :=
  groups.foldl
    (fun sum group =>
      sum + Scalar.ofNat group.length * Scalar.square (Descriptive.mean group - centre))
    0.0

/-- The sum over the groups of the squared deviations from their own mean. -/
@[specialize] def within (groups : List (List α)) : α :=
  groups.foldl (fun sum group => sum + Descriptive.variation group) 0.0

/-- The classical decomposition over one factor. -/
def oneWay (d : Distribution α) (data : Dataset α) (target factor : String) :
    Except (Error α) (VarianceTable α) := do
  let values ← data.numericColumn target
  let grouping ← Factor.ofDataset data factor
  grouping.ensureTestable
  let groups := grouping.groups values
  let df := groups.length - 1
  let residual : Residual α :=
    { sumSquares := within groups, df := values.length - 1 - df }
  if residual.df = 0 then
    throw (.noResidual values.length groups.length)
  let term : Term := ⟨[factor]⟩
  let effect ← test d term (between (Descriptive.mean values) groups) df residual
  return { kind := .oneWay, target, formula := Term.formula target [term], effects := [effect],
           residual, observations := values.length }

/-- The model matrix of a design. -/
@[specialize] def modelMatrix (design : Design) : ModelMatrix α :=
  { rows := design.rows
    columns := design.indicators.map fun column => column.map fun hit => if hit then 1.0 else 0.0 }

/-- Fits the columns of some terms of a design. -/
@[specialize] def fitTerms (design : Design) (response : List α) (terms : List Term) :
    Except (Error α) (Fit α) :=
  LeastSquares.fit (modelMatrix (design.select terms)) response

/-- The row of a term: what it adds to the model of all terms that do not include it. -/
@[specialize] def effect (d : Distribution α) (design : Design) (terms : List Term)
    (response : List α) (residual : Residual α) (term : Term) : Except (Error α) (Effect α) := do
  let base := terms.filter fun other => !other.includes term
  let reduced ← fitTerms design response base
  let augmented ← fitTerms design response (base ++ [term])
  let sumSquares := Scalar.maximum (reduced.residual - augmented.residual) 0.0
  test d term sumSquares (augmented.rank - reduced.rank) residual

/-- The factors of some fields, all of them testable. -/
def testableFactors (data : Dataset α) (names : List String) :
    Except (Error α) (List Factor) :=
  names.mapM fun name => do
    let factor ← Factor.ofDataset data name
    factor.ensureTestable
    return factor

/-- The decomposition over all interactions of some factors. -/
@[specialize] def multiWay (d : Distribution α) (data : Dataset α) (target : String)
    (factors : List String) : Except (Error α) (VarianceTable α) := do
  let response ← data.numericColumn target
  let groupings ← testableFactors data factors
  let terms ← Term.lattice factors
  Cell.check groupings terms
  let design ← Design.ofTerms groupings terms
  let full ← LeastSquares.fit (modelMatrix design) response
  let residual : Residual α := { sumSquares := full.residual, df := full.residualDf }
  if residual.df = 0 then
    throw (.noResidual full.observations full.rank)
  let effects ← terms.mapM (effect d design terms response residual)
  return { kind := .multiWay, target, formula := Term.formula target terms, effects, residual,
           observations := response.length }

/-- The decomposition that answers a request. All its fields must be in all records. -/
@[specialize] def answer (d : Distribution α) (data : Dataset α) (target : String)
    (request : Request) : Except (Error α) (VarianceTable α) := do
  data.requireFields (target :: request.factors)
  if data.isEmpty then
    throw (.emptyData .records)
  match request with
  | .oneWay factor => oneWay d data target factor
  | .multiWay factors => multiWay d data target factors

/-- Decomposes the variance of a field over some factors. -/
@[specialize] def analyze (d : Distribution α) (data : Dataset α) (target : String)
    (factors : List String) : Except (Error α) (VarianceTable α) := do
  answer d data target (← Request.ofFactors factors)

end Variance

end Significance
