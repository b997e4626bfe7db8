import Significance.Loading

/-!
# File trees

Files in nested directories, found by paths that start at the root of the tree. A path leads through
directories only, and a file is written into a directory that is already there.
-/

namespace Significance

/-- Directories and files by their places: the names from the root on. The root is always there. -/
structure FileTree where
  directories : List (List String)
  files : List (List String × String)

namespace FileTree

def empty : FileTree := ⟨[], []⟩

/-- Whether a directory is at a place. -/
def isDirectory (tree : FileTree) (place : List String) : Bool :=
  place.isEmpty || tree.directories.contains place

/-- The content of the file at a place. -/
def content? (tree : FileTree) (place : List String) : Option String :=
  tree.files.lookup place

/-- The place that some names lead to from a directory. -/
def follow (tree : FileTree) (place : List String) : List String → Option (List String)
  | [] => some place
  | name :: rest =>
    if !tree.isDirectory place then none
    else if name ≠ ".." then tree.follow (place ++ [name]) rest
    else if place.isEmpty then none
    else tree.follow place.dropLast rest

/-- The place of a path; there is none for a path from the root of the whole system. -/
def place? (tree : FileTree) (path : String) : Option (List String) :=
  if path.toList.head? = some '/' then none else tree.follow [] (Path.names path)

/-- What is found at a path. -/
def find (tree : FileTree) (path : String) : Loading.Found :=
  if path = "" then .nothing
  else match tree.place? path with
    | none => .nothing
    | some place =>
      if tree.isDirectory place then .directory
      else match tree.content? place with
        | some content => .file content.toUTF8
        | none => .nothing

/-- Most bytes of a name. -/
def nameLimit : Nat := 255

/-- The place where a file can be written. -/
def target? (tree : FileTree) (path : String) : Option (List String) := do
  let place ← tree.place? path
  let name ← place.getLast?
  if tree.isDirectory place ∨ nameLimit < name.utf8ByteSize then none
  else some place

/-- The tree with a file added, or its content replaced. -/
def put (tree : FileTree) (place : List String) (content : String) : FileTree :=
  { tree with files := tree.files.filter (fun file => file.1 ≠ place) ++ [(place, content)] }

/-- Writes a file at a path. -/
def write? (tree : FileTree) (path content : String) : Option FileTree :=
  (tree.target? path).map fun place => tree.put place content

/-- Makes the directories that some names lead through from a directory on. -/
def makeFrom (tree : FileTree) (place : List String) : List String → Option FileTree
  | [] => some tree
  | name :: rest =>
    if name = ".." then
      if place.isEmpty then none else tree.makeFrom place.dropLast rest
    else
      let next := place ++ [name]
      if tree.isDirectory next then tree.makeFrom next rest
      else if (tree.content? next).isSome ∨ nameLimit < name.utf8ByteSize then none
      else { tree with directories := tree.directories ++ [next] }.makeFrom next rest

/-- Makes the directories of a path. -/
def makeDirectories? (tree : FileTree) (path : String) : Option FileTree :=
  if path.toList.head? = some '/' then none else tree.makeFrom [] (Path.names path)

/-- The tree with a file and the directories that it needs. -/
def withFile (tree : FileTree) (path content : String) : FileTree :=
  let place := Path.names path
  ((tree.makeFrom [] place.dropLast).getD tree).put place content

end FileTree

end Significance
