import Significance.Text.Alphanumeric

/-!
# Names of files

Names are made safe for files by keeping letters, digits, hyphens and underscores. Names that become
equal by that get numbers.
-/

namespace Significance.FileStem

/-- A character that may stand in a file name, or an underscore in its place. -/
def sanitizeChar (c : Char) : Char :=
  if Text.isAlphanumeric c ∨ c = '-' ∨ c = '_' then c else '_'

/-- A name with underscores in place of characters that are awkward in file names. -/
def sanitize (name : String) : String :=
  String.ofList (name.toList.map sanitizeChar)

/-- The stems that are tried for a base: itself, and then with the numbers from two on. -/
def candidate (base : String) (i : Nat) : String :=
  if i = 0 then base else base ++ "_" ++ toString (i + 1)

/-- The first stem for a base that is not used. One of `n + 1` stems is not among `n`. -/
def firstFree (used : List String) (base : String) : String :=
  match (List.range (used.length + 1)).find? fun i => !used.contains (candidate base i) with
  | some i => candidate base i
  | none => base

/-- The stems of names after those already used. -/
def uniqueAfter (used : List String) : List String → List String
  | [] => []
  | name :: rest =>
    let stem := firstFree used (sanitize name)
    stem :: uniqueAfter (stem :: used) rest

/-- A stem for every name, all of them different. -/
def unique (names : List String) : List String :=
  uniqueAfter [] names

end Significance.FileStem
