/-!
# Columns of a text table

A cell is filled up with blanks to the width of its column, counted in characters. A wider cell
stays as it is.
-/

namespace Significance.Text

/-- `count` blanks. -/
def blanks (count : Nat) : String :=
  String.ofList (List.replicate count ' ')

/-- A cell that starts its column. -/
def left (width : Nat) (cell : String) : String :=
  cell ++ blanks (width - cell.length)

/-- A cell that ends its column. -/
def right (width : Nat) (cell : String) : String :=
  blanks (width - cell.length) ++ cell

/-- A line of `width` equal characters. -/
def rule (c : Char) (width : Nat) : String :=
  String.ofList (List.replicate width c)

example : left 6 "GA" ++ "|" ++ right 4 "é" = "GA    |   é" := by decide +kernel

end Significance.Text
