import Significance.Decimal.Numeral
import Significance.Scalar.Binary64
import Significance.Text.Blank

/-!
# Field values

The values that a result file holds. A value that can name a group has a label; numbers that are
equal have one label, so `2.0` and `2` name one group, and so do the two zeros.
-/

namespace Significance

/-- A field value of an experiment record. -/
inductive Value (α : Type)
  | null
  | bool (b : Bool)
  | number (x : α)
  | text (s : String)
  | list (items : List (Value α))

/-- The kinds of values. -/
inductive Kind
  | null
  | boolean
  | number
  | text
  | list
  deriving DecidableEq, Repr

/-- The word for a kind in messages. -/
def Kind.name : Kind → String
  | .null => "null"
  | .boolean => "boolean"
  | .number => "number"
  | .text => "text"
  | .list => "list"

/-- `true` or `false`. -/
def truthText (b : Bool) : String :=
  if b then "true" else "false"

namespace Value

variable {α : Type}

def kind : Value α → Kind
  | .null => .null
  | .bool _ => .boolean
  | .number _ => .number
  | .text _ => .text
  | .list _ => .list

/-- The number that a value is, if it is one. -/
def number? : Value α → Option α
  | .number x => some x
  | _ => none

/-- The label of a number: the digits of a whole number of at most fifteen of them, for which the
sign of a zero is lost, and the shortest text of any other. -/
def numberLabel [Scalar α] (x : α) : String :=
  match Scalar.whole? x with
  | some n => if n.natAbs < Decimal.tenTo 15 then Decimal.integral n else Scalar.text x
  | none => Scalar.text x

/-- The label under which a value names a group. Nulls and lists name none. -/
def label? [Scalar α] : Value α → Option String
  | .text s => some s
  | .bool b => some (truthText b)
  | .number x => some (numberLabel x)
  | .null => none
  | .list _ => none

mutual

/-- The text of a value; the items of a list stand in brackets between semicolons. -/
def display [Scalar α] : Value α → String
  | .null => ""
  | .bool b => truthText b
  | .number x => Scalar.text x
  | .text s => s
  | .list items => "[" ++ ";".intercalate (displayItems items) ++ "]"

/-- The texts of the items of a list. -/
def displayItems [Scalar α] : List (Value α) → List String
  | [] => []
  | item :: rest => display item :: displayItems rest

end

/-- Reads a cell of a delimited file: white space around it does not count, an empty cell is null,
numbers and six spellings of the truth values are recognised, and all else is text. -/
def ofCell (cell : String) : Value Float :=
  let s := Text.trim cell
  if s = "" then .null
  else match Decimal.read? s with
    | some x => .number x
    | none =>
      if s = "True" ∨ s = "true" ∨ s = "TRUE" then .bool true
      else if s = "False" ∨ s = "false" ∨ s = "FALSE" then .bool false
      else .text s

end Value

end Significance
