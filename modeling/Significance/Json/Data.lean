import Significance.Factor
import Significance.Json.Reading
import Significance.Json.Tree
import Significance.Term

/-!
# Data in JSON

Field values are the values of JSON except objects; a record is an object of field values and a
dataset an array of records. They are read as a whole, so their nesting is limited.
-/

namespace Significance

open Json (Source Tree)

mutual

/-- A field value as a document. -/
def Value.toJson : Value Float → Tree
  | .null => .null
  | .bool b => .bool b
  | .number x => .double x
  | .text s => .string s
  | .list items => .array (Value.itemsToJson items)

/-- The items of a list as documents. -/
def Value.itemsToJson : List (Value Float) → List Tree
  | [] => []
  | item :: rest => item.toJson :: Value.itemsToJson rest

end

mutual

/-- The field value that a document holds. -/
def Value.ofJson? : Source → Option (Value Float)
  | .null => some .null
  | .bool b => some (.bool b)
  | .number literal => literal.double?.map .number
  | .string s => s.map .text
  | .array items => (Value.itemsOfJson? items).map .list
  | .object _ => none

/-- The field values that documents hold. -/
def Value.itemsOfJson? : List Source → Option (List (Value Float))
  | [] => some []
  | item :: rest => do
    let value ← Value.ofJson? item
    let values ← Value.itemsOfJson? rest
    return value :: values

end

/-- A record as a document. -/
def Record.toJson (record : Record (Value Float)) : Tree :=
  .object (record.fields.map fun (name, value) => (name, value.toJson))

/-- The record that a document holds; of fields with one name the last counts. -/
def Record.ofJson? : Source → Option (Record (Value Float))
  | .object fields => do
    let fields ← Source.namedFields? fields
    let values ← fields.mapM fun (name, source) => do return (name, ← Value.ofJson? source)
    return Record.ofList values
  | _ => none

/-- A dataset as a document. -/
def Dataset.toJson (data : Dataset Float) : Tree :=
  .array (data.records.map Record.toJson)

/-- The dataset that a document holds. -/
def Dataset.ofJson? (source : Source) : Option (Dataset Float) :=
  (Source.list? Record.ofJson? source).map Dataset.mk

/-- A factor as a document. -/
def Factor.toJson (factor : Factor) : Tree :=
  .object [("name", .string factor.name), ("levels", .array (factor.levels.map .string)),
    ("codes", .array (factor.codes.map .natural))]

/-- The factor that a document holds. -/
def Factor.ofJson? (source : Source) : Option Factor := do
  match ← source.fieldsOf? ["name", "levels", "codes"] with
  | [name, levels, codes] =>
    return { name := ← Source.required? Source.text? name
             levels := ← Source.required? (Source.list? Source.text?) levels
             codes := ← Source.required? (Source.list? Source.natural?) codes }
  | _ => none

/-- A term as a document. -/
def Term.toJson (term : Term) : Tree :=
  .object [("factors", .array (term.factors.map .string))]

/-- The term that a document holds. -/
def Term.ofJson? (source : Source) : Option Term := do
  match ← source.fieldsOf? ["factors"] with
  | [factors] => return ⟨← Source.required? (Source.list? Source.text?) factors⟩
  | _ => none

end Significance
