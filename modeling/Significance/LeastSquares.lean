import Significance.Error

/-!
# Least squares

The residual sum of squares and the rank of a linear model, by reflections with column pivoting.
Each step mirrors the longest remaining column onto the first coordinate and goes on with the other
coordinates of the other columns and of the response. What is left of the response when no column
is longer than the tolerance is the residual, up to a rotation.
-/

namespace Significance

/-- A model matrix: its number of rows and its columns. -/
structure ModelMatrix (α : Type) where
  rows : Nat
  columns : List (List α)

/-- What is known of a fitted model. -/
structure Fit (α : Type) where
  residual : α
  rank : Nat
  observations : Nat

namespace Fit

/-- Observations less rank. -/
def residualDf {α : Type} (fit : Fit α) : Nat :=
  fit.observations - fit.rank

end Fit

namespace LeastSquares

variable {α : Type} [Scalar α]

/-- Remaining columns at most this long, as a part of the longest column, count as dependent. -/
def rankTolerance : α := 1e-9

/-- Reflectors whose squared length is not above the smallest normal double are left out. -/
def smallestReflector : α := 2.2250738585072014e-308

/-- The sum of the squares of the entries. -/
@[specialize] def squaredLength (column : List α) : α :=
  Scalar.total (column.map Scalar.square)

/-- The Euclidean length of a column. -/
@[specialize] def length (column : List α) : α :=
  Scalar.sqrt (squaredLength column)

/-- Columns at most this long count as zero: relative to the longest column, or absolute where no
column is longer than one. -/
@[specialize] def tolerance (columns : List (List α)) : α :=
  let longest := (columns.map length).foldl Scalar.maximum 0.0
  rankTolerance * Scalar.maximum longest 1.0

/-- The length and the position of the first of the longest columns. -/
@[specialize] def longest (columns : List (List α)) : α × Nat :=
  columns.zipIdx.foldl
    (fun (best, position) (column, j) =>
      let size := length column
      if best < size then (size, j) else (best, position))
    (-1.0, 0)

/-- Exchanges the first column with the one at a position, and sets the new first one apart. -/
def exchange (position : Nat) : List (List α) → List α × List (List α)
  | [] => ([], [])
  | first :: rest =>
    match position with
    | 0 => (first, rest)
    | j + 1 => (rest.getD j [], rest.set j first)

/-- The normal vector of a reflection, its first entry apart, with twice the inverse of its squared
length; there is no reflection where that length is too small. -/
structure Mirror (α : Type) where
  first : α
  others : List α
  twice : Option α

/-- The mirror that sends a column of the given length to a multiple of the first coordinate
vector, of the sign that avoids cancellation. -/
@[specialize] def Mirror.ofColumn (size : α) : List α → Mirror α
  | [] => ⟨0.0, [], none⟩
  | entry :: others =>
    let image := if 0.0 < entry then -size else size
    let first := entry - image
    let squared := others.foldl (fun sum v => sum + Scalar.square v) (Scalar.square first)
    { first, others, twice := if smallestReflector < squared then some (2.0 / squared) else none }

/-- The mirror image of a column, without its first entry. -/
@[specialize] def Mirror.image (mirror : Mirror α) : List α → List α
  | [] => []
  | entry :: rest =>
    match mirror.twice with
    | none => rest
    | some twice =>
      let product :=
        (mirror.others.zip rest).foldl (fun sum (v, x) => sum + v * x) (mirror.first * entry)
      let scale := twice * product
      rest.zipWith (fun x v => x - scale * v) mirror.others

/-- The number of columns longer than the tolerance that one after another were mirrored away, at
most `steps`, and the coordinates of the response that are left. -/
@[specialize] def eliminate (tolerance : α) :
    Nat → List (List α) → List α → Nat × List α
  | 0, _, response => (0, response)
  | steps + 1, columns, response =>
    let (size, position) := longest columns
    if size ≤ tolerance then (0, response)
    else
      let (pivot, others) := exchange position columns
      let mirror := Mirror.ofColumn size pivot
      let (rank, rest) := eliminate tolerance steps (others.map mirror.image) (mirror.image response)
      (rank + 1, rest)

/-- Fits the response by the columns of the matrix. -/
@[specialize] def fit (matrix : ModelMatrix α) (response : List α) : Except (Error α) (Fit α) :=
  if matrix.rows = 0 then
    .error (.emptyData .matrixRows)
  else if response.length ≠ matrix.rows then
    .error (.invalidInput (.responseLength response.length matrix.rows))
  else
    let steps := min matrix.rows matrix.columns.length
    let (rank, rest) := eliminate (tolerance matrix.columns) steps matrix.columns response
    let residual := squaredLength rest
    if Scalar.isFinite residual then
      .ok { residual, rank, observations := matrix.rows }
    else
      .error (.unstable (.residual residual))

end LeastSquares

end Significance
