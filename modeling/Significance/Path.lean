/-!
# Paths

A path is a list of names between slashes. Empty names and single points do not count.
-/

namespace Significance.Path

/-- The pieces of a text between slashes, at least one. -/
def pieces : List Char → List (List Char)
  | [] => [[]]
  | c :: rest =>
    if c = '/' then [] :: pieces rest
    else match pieces rest with
      | [] => [[c]]
      | piece :: more => (c :: piece) :: more

/-- The names of a path. -/
def names (path : String) : List String :=
  ((pieces path.toList).map String.ofList).filter fun name => name ≠ "" ∧ name ≠ "."

/-- The last name of a path, unless it leads upwards. -/
def fileName? (path : String) : Option String :=
  match (names path).getLast? with
  | some ".." => none
  | name => name

/-- What stands before and after the last point of a name. -/
def splitLastPoint (name : List Char) : Option (List Char × List Char) :=
  match name.reverse.span (· ≠ '.') with
  | (_, []) => none
  | (after, _ :: before) => some (before.reverse, after.reverse)

/-- A file name without its extension; a point at the start of a name begins no extension. -/
def stemOf (name : String) : String :=
  match splitLastPoint name.toList with
  | none => name
  | some ([], _) => name
  | some (before, _) => String.ofList before

/-- The last name of a path without its extension. -/
def stem? (path : String) : Option String :=
  (fileName? path).map stemOf

/-- The extension of the last name of a path. -/
def extension? (path : String) : Option String :=
  match (fileName? path).bind fun name => splitLastPoint name.toList with
  | none => none
  | some ([], _) => none
  | some (_, after) => some (String.ofList after)

/-- A path as it is seen from a directory. A path from the root stays as it is. -/
def join (directory path : String) : String :=
  if path.toList.head? = some '/' then path
  else if directory = "" ∨ directory.toList.getLast? = some '/' then directory ++ path
  else directory ++ "/" ++ path

example : stem? "runs/a.b.csv" = some "a.b" ∧ extension? "runs/a.b.csv" = some "csv" := by
  decide +kernel
example : extension? "load/.csv" = none ∧ extension? "data." = some "" := by decide +kernel

end Significance.Path
