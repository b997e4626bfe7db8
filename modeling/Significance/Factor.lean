import Significance.Dataset

/-!
# Factors

A factor groups the records by the label of one field. Its levels are the labels that occur, in
increasing order, and every record has the position of its level as its code.
-/

namespace Significance

/-- A categorical grouping of the records. -/
structure Factor where
  name : String
  levels : List String
  codes : List Nat
  deriving DecidableEq, Repr

namespace Factor

variable {α : Type}

/-- The factor of one label per record. A label that is no level would count as the first level, but
every label is one. -/
def ofLabels (name : String) (labels : List String) : Factor :=
  let levels := Text.sortedDistinct labels
  { name, levels, codes := labels.map fun label => (Text.position? levels label).getD 0 }

/-- The factor of a field. -/
def ofDataset [Scalar α] (data : Dataset α) (name : String) : Except (Error α) Factor := do
  return ofLabels name (← data.categoricalColumn name)

/-- Number of records. -/
def size (factor : Factor) : Nat :=
  factor.codes.length

/-- Refuses a factor that does not part the records into two groups at least. -/
def ensureTestable (factor : Factor) : Except (Error α) Unit :=
  match factor.levels with
  | [] => .error (.emptyData (.observations factor.name))
  | [level] => .error (.singleLevel factor.name level)
  | _ => .ok ()

/-- The positions of the records with a level, increasing. -/
def recordsWithLevel (factor : Factor) (level : String) : List Nat :=
  match factor.levels.idxOf? level with
  | some code => factor.codes.zipIdx.filterMap fun (c, i) => if c = code then some i else none
  | none => []

/-- How many records have each level. -/
def levelCounts (factor : Factor) : List Nat :=
  factor.levels.zipIdx.map fun (_, code) => factor.codes.count code

/-- The values of the records with a code, in record order. -/
def group (factor : Factor) (values : List α) (code : Nat) : List α :=
  (factor.codes.zip values).filterMap fun (c, v) => if c = code then some v else none

/-- One value per record, parted by level. -/
def groups (factor : Factor) (values : List α) : List (List α) :=
  factor.levels.zipIdx.map fun (_, code) => factor.group values code

end Factor

end Significance
