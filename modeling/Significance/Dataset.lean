import Significance.Error
import Significance.Record

/-!
# Datasets

An ordered list of experiment records. Columns are read in record order, and the first record that
lacks the field or holds an unfit value decides the error.
-/

namespace Significance

/-- Experiment records in the order of the file. -/
structure Dataset (α : Type) where
  records : List (Record (Value α))

namespace Dataset

variable {α : Type}

def size (data : Dataset α) : Nat :=
  data.records.length

def isEmpty (data : Dataset α) : Bool :=
  data.records.isEmpty

/-- The names of all fields of all records, in increasing order. -/
def fieldNames (data : Dataset α) : List String :=
  Text.sortedDistinct (data.records.flatMap Record.names)

/-- A field of the record at position `i`. -/
def field (record : Record (Value α)) (i : Nat) (name : String) : Except (Error α) (Value α) :=
  match record.get? name with
  | some value => .ok value
  | none => .error (.missingField name i)

/-- A field of the record at a position. -/
def value (data : Dataset α) (i : Nat) (name : String) : Except (Error α) (Value α) :=
  match data.records[i]? with
  | some record => field record i name
  | none => .error (.missingField name i)

/-- Refuses a dataset with a record that lacks one of the fields: the first such record, and in it
the first such field, is named. -/
def requireFields (data : Dataset α) (names : List String) : Except (Error α) Unit :=
  match data.records.zipIdx.findSome? fun (record, i) =>
    (names.find? fun name => !record.contains name).map (·, i) with
  | some (name, i) => .error (.missingField name i)
  | none => .ok ()

/-- The field as a finite number. -/
def finiteNumber [Scalar α] (name : String) (i : Nat) : Value α → Except (Error α) α
  | .number x => if Scalar.isFinite x then .ok x else .error (.invalidValue name i (.notFinite x))
  | other => .error (.invalidValue name i (.notNumber other.kind))

/-- The field as the label of a category. -/
def category [Scalar α] (name : String) (i : Nat) (value : Value α) :
    Except (Error α) String :=
  match value.label? with
  | some label => .ok label
  | none => .error (.invalidValue name i (.notCategory value.kind))

/-- A column of finite numbers. -/
def numericColumn [Scalar α] (data : Dataset α) (name : String) : Except (Error α) (List α) :=
  data.records.zipIdx.mapM fun (record, i) => do finiteNumber name i (← field record i name)

/-- A column of category labels. -/
def categoricalColumn [Scalar α] (data : Dataset α) (name : String) :
    Except (Error α) (List String) :=
  data.records.zipIdx.mapM fun (record, i) => do category name i (← field record i name)

/-- The dataset with one field added to every record, or replaced in it. -/
def withField (data : Dataset α) (name : String) (values : List (Value α)) :
    Except (Error α) (Dataset α) :=
  if values.length = data.size then
    .ok ⟨(data.records.zip values).map fun (record, value) => record.insert name value⟩
  else
    .error (.invalidInput (.valueCount name values.length data.size))

/-- The dataset with one numeric field added to every record, or replaced in it. -/
def withNumericField (data : Dataset α) (name : String) (values : List α) :
    Except (Error α) (Dataset α) :=
  data.withField name (values.map .number)

end Dataset

end Significance
