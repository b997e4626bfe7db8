import Significance.Value

/-!
# Errors

Every reason for which an analysis, a file or a plot is refused, and the one wording of each.
-/

namespace Significance

/-- Why a number cannot be the reference of a relative deviation. -/
inductive ReferenceFault
  | zero
  | notFinite
  deriving DecidableEq, Repr

/-- Why a value cannot be used where it stands. -/
inductive ValueFault (α : Type)
  | notFinite (x : α)
  | notNumber (found : Kind)
  | notCategory (found : Kind)

/-- What there is nothing of. -/
inductive Absence
  | referenceValues (field : String)
  | observations (factor : String)
  | designRows
  | matrixRows
  | records
  | headerRow (path : String)
  | recordsIn (path : String)
  | groups
  deriving DecidableEq, Repr

/-- Arguments that do not fit together. -/
inductive Misfit
  | valueCount (field : String) (values records : Nat)
  | responseLength (values rows : Nat)
  | tooManyFactors (count limit : Nat)
  | unknownFactor (term factor : String)
  | notRecords (found : String)
  | failedAnalyses (failed all : Nat)
  deriving DecidableEq, Repr

/-- Arithmetic that has left the numbers. -/
inductive Instability (α : Type)
  | residual (sum : α)
  | criticalValue (groups df : Nat)

/-- Why the levels of a factor cannot be compared in pairs. -/
inductive PairFault (α : Type)
  | valueCount (values records : Nat)
  | significance (alpha : α)
  | levelCount (levels : Nat)
  | levelSize (level : String) (observations : Nat)
  | residualDf (df : Nat)
  | noVariance

/-- What is wrong with a delimited file. -/
inductive DelimitedFault
  | unreadable
  | unequalLengths (expected found : Nat)
  | encoding
  deriving DecidableEq, Repr

/-- Every reason for a refusal. -/
inductive Error (α : Type)
  | invalidReference (field : String) (reference : α) (fault : ReferenceFault)
  | noFactors
  | repeatedFactor (factor : String)
  | emptyCell (term : String) (cell : List (String × String))
  | singleLevel (factor level : String)
  | missingField (field : String) (record : Nat)
  | invalidValue (field : String) (record : Nat) (fault : ValueFault α)
  | emptyData (what : Absence)
  | noResidual (observations parameters : Nat)
  | unstable (what : Instability α)
  | pairs (factor : String) (fault : PairFault α)
  | invalidInput (what : Misfit)
  | unsupportedFormat (path : String)
  | fileAccess
  | delimited (fault : DelimitedFault)
  | json
  | drawing
  /-- The `F` statistic times its degrees of freedom exceeds every number, so it has no tail. -/
  | undefinedTail

def ReferenceFault.message : ReferenceFault → String
  | .zero => "reference is zero, relative deviation is undefined"
  | .notFinite => "reference is not finite"

def ValueFault.message {α : Type} [Scalar α] : ValueFault α → String
  | .notFinite x => "non-finite number " ++ Scalar.text x
  | .notNumber found => "expected a number, found " ++ found.name
  | .notCategory found => found.name ++ " value cannot be used as a category"

def Absence.message : Absence → String
  | .referenceValues field => s!"no values of '{field}' to derive a reference from"
  | .observations factor => s!"factor '{factor}' has no observations"
  | .designRows => "Design matrix has zero rows"
  | .matrixRows => "Model matrix has zero rows"
  | .records => "dataset has no records"
  | .headerRow path => s!"{path} has no header row"
  | .recordsIn path => s!"no records in {path}"
  | .groups => "no groups to plot"

def Misfit.message : Misfit → String
  | .valueCount field values records =>
    s!"field '{field}' has {values} values for {records} records"
  | .responseLength values rows =>
    s!"response has {values} values but model matrix has {rows} rows"
  | .tooManyFactors count limit =>
    s!"{count} factors give 2^{count} - 1 model terms, at most {limit} factors are supported"
  | .unknownFactor term factor => s!"term '{term}' refers to unknown factor '{factor}'"
  | .notRecords found => s!"expected an array of records, found {found}"
  | .failedAnalyses failed all => s!"{failed} of {all} analyses failed"

/-- The computation that went wrong, and how. -/
def Instability.message {α : Type} [Scalar α] : Instability α → String
  | .residual sum => "least squares: residual sum of squares is " ++ Scalar.text sum
  | .criticalValue groups df => s!"qtukey: k={groups}, df={df}"

def PairFault.message {α : Type} [Scalar α] : PairFault α → String
  | .valueCount values records => s!"{values} values for {records} records"
  | .significance alpha => "alpha " ++ Scalar.text alpha ++ " outside (0, 1)"
  | .levelCount levels => s!"{levels} level(s), at least 2 required"
  | .levelSize level observations =>
    s!"level '{level}' has {observations} observation(s), at least 2 required"
  | .residualDf df => s!"{df} residual degrees of freedom"
  | .noVariance => "zero within-group variance"

def DelimitedFault.message : DelimitedFault → String
  | .unreadable => "the file cannot be read or written"
  | .unequalLengths expected found =>
    s!"found a row with {found} cells, but the first row has {expected}"
  | .encoding => "a cell is not UTF-8"

/-- The text of a cell: its levels in the order of the factors. -/
def cellText (cell : List (String × String)) : String :=
  ", ".intercalate (cell.map fun (factor, level) => s!"{factor}={level}")

/-- The wording of an error. -/
def Error.message {α : Type} [Scalar α] : Error α → String
  | .invalidReference field reference fault =>
    "Invalid normalization reference " ++ Scalar.text reference ++ " for field '" ++ field ++ "': "
      ++ fault.message
  | .noFactors => "No grouping factors supplied"
  | .repeatedFactor factor => s!"Factor '{factor}' listed more than once"
  | .emptyCell term cell => s!"Term '{term}' has no observations in cell (" ++ cellText cell ++ ")"
  | .singleLevel factor level =>
    s!"Factor '{factor}' has a single level '{level}' and cannot be tested"
  | .missingField field record => s!"Record {record} is missing field '{field}'"
  | .invalidValue field record fault =>
    s!"Invalid value for field '{field}' in record {record}: " ++ fault.message
  | .emptyData what => "Empty data: " ++ what.message
  | .noResidual observations parameters =>
    s!"No residual degrees of freedom: {observations} observations, {parameters} model parameters"
  | .unstable what => "Numerical instability in " ++ what.message
  | .pairs factor fault => s!"Post-hoc test for factor '{factor}' failed: " ++ fault.message
  | .invalidInput what => "Invalid input: " ++ what.message
  | .unsupportedFormat path => s!"Unsupported file format: {path}"
  | .fileAccess => "IO error: a file or directory cannot be read or written"
  | .delimited fault => "CSV parsing error: " ++ fault.message
  | .json => "JSON parsing error: the text is not a document of the expected form"
  | .drawing => "Plotting error: the image file cannot be written"
  | .undefinedTail => "The F statistic is too large for its distribution"

end Significance
