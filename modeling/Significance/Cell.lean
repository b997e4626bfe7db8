import Significance.Factor
import Significance.Term

/-!
# Cells of a cross-classification

A cell of a term is one combination of levels of its factors. The cells are numbered in mixed
radix, the last factor varying fastest, so that increasing numbers are combinations in
lexicographic order.
-/

namespace Significance

/-- The factor of a name; of several with one name the last is meant. -/
def Factor.named? (factors : List Factor) (name : String) : Option Factor :=
  factors.reverse.find? fun factor => factor.name = name

/-- The factors of a term. -/
def Term.resolve {α : Type} (term : Term) (factors : List Factor) :
    Except (Error α) (List Factor) :=
  term.factors.mapM fun name =>
    match Factor.named? factors name with
    | some factor => .ok factor
    | none => .error (.invalidInput (.unknownFactor term.name name))

namespace Cell

/-- Number of combinations of one level per factor. -/
def count (factors : List Factor) : Nat :=
  factors.foldl (fun n factor => n * factor.levels.length) 1

/-- The cell number of every record. -/
def numbers (factors : List Factor) : List Nat :=
  let records := (factors.head?.map Factor.size).getD 0
  factors.foldl
    (fun cells factor =>
      cells.zipWith (fun cell code => cell * factor.levels.length + code) factor.codes)
    (List.replicate records 0)

/-- The levels of a cell, for factors from the last to the first. -/
def levelsFromLast : List Factor → Nat → List (String × String)
  | [], _ => []
  | factor :: earlier, cell =>
    let n := factor.levels.length
    (factor.name, factor.levels.getD (cell % n) "") :: levelsFromLast earlier (cell / n)

/-- The level that a cell asks of each factor. -/
def levels (factors : List Factor) (cell : Nat) : List (String × String) :=
  (levelsFromLast factors.reverse cell).reverse

/-- Which of the cells below `count` are among the given ones. -/
def marks (count : Nat) (cells : List Nat) : Array Bool :=
  cells.foldl (fun marks cell => marks.setIfInBounds cell true) (Array.replicate count false)

/-- The first cell of some factors that no record is in. -/
def firstEmpty? (factors : List Factor) : Option Nat :=
  (marks (count factors) (numbers factors)).findIdx? fun seen => !seen

/-- Refuses terms with a cell that no record is in. The first such term is named, with the first of
its empty cells. -/
def check {α : Type} (factors : List Factor) (terms : List Term) : Except (Error α) Unit :=
  terms.forM fun term => do
    let own ← term.resolve factors
    match firstEmpty? own with
    | some cell => throw (.emptyCell term.name (levels own cell))
    | none => return ()

end Cell

end Significance
