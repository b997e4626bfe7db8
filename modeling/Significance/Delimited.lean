import Significance.Error

/-!
# Comma-separated files

A row is a list of cells between commas, ended by a line break. A cell that starts with a quote goes
on to the next single quote, and a doubled quote in it stands for one. Lines without any character
are no rows. Cells are written with quotes only where they have to be.
-/

namespace Significance.Delimited

/-- The bytes of a cell. -/
abbrev Cell := List UInt8

/-- Where in a row a byte stands. -/
inductive Place
  | rowStart
  | cellStart
  | cell
  | quoted
  | afterQuote

def comma : UInt8 := 0x2C
def quote : UInt8 := 0x22

/-- Whether a byte ends a row: a carriage return or a line feed. -/
def isBreak (b : UInt8) : Bool :=
  b = 0x0D || b = 0x0A

/-- A row from its finished cells, last first, and the bytes of its last cell, last first. -/
def finish (cells : List Cell) (cell : Cell) : List Cell :=
  (cell.reverse :: cells).reverse

/-- The rows of a file, given the place of its first byte, the cells of the row before it and the
bytes of the cell before it, both last first. -/
def rowsFrom : Place → List Cell → Cell → List UInt8 → List (List Cell)
  | .rowStart, _, _, [] => []
  | _, cells, cell, [] => [finish cells cell]
  | .rowStart, cells, cell, b :: rest =>
    if isBreak b then rowsFrom .rowStart cells cell rest
    else if b = quote then rowsFrom .quoted cells cell rest
    else if b = comma then rowsFrom .cellStart (cell.reverse :: cells) [] rest
    else rowsFrom .cell cells (b :: cell) rest
  | .cellStart, cells, cell, b :: rest =>
    if b = quote then rowsFrom .quoted cells cell rest
    else if b = comma then rowsFrom .cellStart (cell.reverse :: cells) [] rest
    else if isBreak b then finish cells cell :: rowsFrom .rowStart [] [] rest
    else rowsFrom .cell cells (b :: cell) rest
  | .cell, cells, cell, b :: rest =>
    if b = comma then rowsFrom .cellStart (cell.reverse :: cells) [] rest
    else if isBreak b then finish cells cell :: rowsFrom .rowStart [] [] rest
    else rowsFrom .cell cells (b :: cell) rest
  | .quoted, cells, cell, b :: rest =>
    if b = quote then rowsFrom .afterQuote cells cell rest
    else rowsFrom .quoted cells (b :: cell) rest
  | .afterQuote, cells, cell, b :: rest =>
    if b = quote then rowsFrom .quoted cells (b :: cell) rest
    else if b = comma then rowsFrom .cellStart (cell.reverse :: cells) [] rest
    else if isBreak b then finish cells cell :: rowsFrom .rowStart [] [] rest
    else rowsFrom .cell cells (b :: cell) rest

/-- A file without the mark of its encoding. -/
def withoutMark : List UInt8 → List UInt8
  | 0xEF :: 0xBB :: 0xBF :: rest => rest
  | bytes => bytes

/-- The rows of a file. -/
def rows (bytes : List UInt8) : List (List Cell) :=
  rowsFrom .rowStart [] [] (withoutMark bytes)

/-- The text of a cell, without white space around it. -/
def cellText? (cell : Cell) : Option String :=
  (String.fromUTF8? ⟨cell.toArray⟩).map Text.trim

/-- The texts of a row. -/
def texts (row : List Cell) : Except DelimitedFault (List String) :=
  match row.mapM cellText? with
  | some cells => .ok cells
  | none => .error .encoding

/-- The texts of a row that must have a given number of cells. -/
def textsOf (count : Nat) (row : List Cell) : Except DelimitedFault (List String) :=
  if row.length = count then texts row
  else .error (.unequalLengths count row.length)

/-- Whether a character can only stand between quotes. -/
def needsQuotes (c : Char) : Bool :=
  c = ',' || c = '"' || c = '\r' || c = '\n'

/-- A text between quotes, those inside it doubled. -/
def quoted (text : String) : String :=
  String.ofList ('"' :: text.toList.flatMap (fun c => if c = '"' then [c, c] else [c]) ++ ['"'])

/-- A cell as it is written. -/
def writtenCell (text : String) : String :=
  if text.toList.any needsQuotes then quoted text else text

/-- A row as it is written. A row of a single empty cell would look like no row. -/
def writtenRow (cells : List String) : String :=
  if cells = [""] then "\"\"\n"
  else ",".intercalate (cells.map writtenCell) ++ "\n"

/-- A file of rows. -/
def written (rows : List (List String)) : String :=
  String.join (rows.map writtenRow)

example : writtenRow ["a,b", "say \"x\"", ""] = "\"a,b\",\"say \"\"x\"\"\",\n" := by decide +kernel

end Significance.Delimited
