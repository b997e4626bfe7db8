import Significance.Decimal.Layout

/-!
# Writing JSON documents

A tree is written on one line without blanks, or with every item and every field on a line of its
own. A double is written with the fewest digits that read back, and as null if it is not finite.
-/

namespace Significance.Json

/-- A document to be written. -/
inductive Tree
  | null
  | bool (b : Bool)
  | natural (n : Nat)
  | double (x : Float)
  | string (s : String)
  | array (items : List Tree)
  | object (fields : List (String × Tree))

namespace Tree

/-- A hexadecimal digit. -/
def hexDigit (n : Nat) : Char :=
  Nat.digitChar (n % 16)

/-- A character of a text. Quotes, backslashes and control characters are escaped. -/
def escape (c : Char) : List Char :=
  match c with
  | '"' => ['\\', '"']
  | '\\' => ['\\', '\\']
  | '\n' => ['\\', 'n']
  | '\r' => ['\\', 'r']
  | '\t' => ['\\', 't']
  | c =>
    if c.toNat = 0x08 then ['\\', 'b']
    else if c.toNat = 0x0C then ['\\', 'f']
    else if c.toNat < 0x20 then ['\\', 'u', '0', '0', hexDigit (c.toNat / 16), hexDigit c.toNat]
    else [c]

/-- A text between quotes. -/
def quoted (s : String) : String :=
  String.ofList ('"' :: s.toList.flatMap escape ++ ['"'])

/-- A double. -/
def doubleText (x : Float) : String :=
  if x.isFinite then Decimal.json x else "null"

mutual

/-- The document on one line. -/
def compact : Tree → String
  | .null => "null"
  | .bool b => if b then "true" else "false"
  | .natural n => toString n
  | .double x => doubleText x
  | .string s => quoted s
  | .array items => "[" ++ ",".intercalate (compactItems items) ++ "]"
  | .object fields => "\x7b" ++ ",".intercalate (compactFields fields) ++ "\x7d"

/-- The items of an array, each on one line. -/
def compactItems : List Tree → List String
  | [] => []
  | item :: rest => item.compact :: compactItems rest

/-- The fields of an object, each on one line. -/
def compactFields : List (String × Tree) → List String
  | [] => []
  | (name, value) :: rest => (quoted name ++ ":" ++ value.compact) :: compactFields rest

end

/-- A line break and the indentation after it, two blanks for every level. -/
def newline (level : Nat) : String :=
  "\n" ++ String.ofList (List.replicate (2 * level) ' ')

/-- Parts on lines of their own between two brackets, which stand together where there are none. -/
def block (level : Nat) (opening closing : String) (parts : List String) : String :=
  if parts.isEmpty then opening ++ closing
  else
    opening ++ newline (level + 1) ++ ("," ++ newline (level + 1)).intercalate parts
      ++ newline level ++ closing

mutual

/-- The document with indented lines, itself at a level of indentation. -/
def indented (level : Nat) : Tree → String
  | .array items => block level "[" "]" (indentedItems (level + 1) items)
  | .object fields => block level "\x7b" "\x7d" (indentedFields (level + 1) fields)
  | .null => "null"
  | .bool b => if b then "true" else "false"
  | .natural n => toString n
  | .double x => doubleText x
  | .string s => quoted s

/-- The items of an array at a level of indentation. -/
def indentedItems (level : Nat) : List Tree → List String
  | [] => []
  | item :: rest => item.indented level :: indentedItems level rest

/-- The fields of an object at a level of indentation. -/
def indentedFields (level : Nat) : List (String × Tree) → List String
  | [] => []
  | (name, value) :: rest =>
    (quoted name ++ ": " ++ value.indented level) :: indentedFields level rest

end

/-- The document with indented lines. -/
def pretty (tree : Tree) : String :=
  tree.indented 0

end Tree

end Significance.Json
