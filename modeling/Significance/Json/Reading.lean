import Significance.Json.Source

/-!
# Reading values from JSON documents

A structure is an object with its fields, or an array of them in their order. In an object other
fields do not count, a field that may be absent may also be null, and no field stands twice. One of
several words is a text, or an object whose only field has that name and is null.
-/

namespace Significance.Json.Source

/-- A text. -/
def text? : Source → Option String
  | .string text => text
  | _ => none

/-- A truth value. -/
def bool? : Source → Option Bool
  | .bool b => some b
  | _ => none

/-- A number. -/
def double? : Source → Option Float
  | .number literal => literal.double?
  | _ => none

/-- A whole number that is not negative. -/
def natural? : Source → Option Nat
  | .number literal => literal.natural?
  | _ => none

/-- A list. -/
def list? {β : Type} (item? : Source → Option β) : Source → Option (List β)
  | .array items => items.mapM item?
  | _ => none

/-- A value, or null. -/
def nullable? {β : Type} (value? : Source → Option β) : Source → Option (Option β)
  | .null => some none
  | source => (value? source).map some

/-- A word, alone or as the name of a null. -/
def word? : Source → Option String
  | .string text => text
  | .object [(name, .null)] => name
  | _ => none

/-- The only field of an object. -/
def single? : Source → Option (String × Source)
  | .object [(some name, content)] => some (name, content)
  | _ => none

/-- Whether one of the names stands twice among the fields. -/
def repeats (names : List String) (fields : List (String × Source)) : Bool :=
  names.any fun name => 1 < (fields.filter fun field => field.1 = name).length

/-- The fields of an object, all of whose names are texts. -/
def namedFields? (fields : List (Option String × Source)) : Option (List (String × Source)) :=
  fields.mapM fun (name, value) => name.map (·, value)

/-- The fields of a structure, in the order of their names; from an object some may be absent. -/
def fieldsOf? (names : List String) : Source → Option (List (Option Source))
  | .object fields => do
    let fields ← namedFields? fields
    if repeats names fields then none
    else some (names.map fun name => fields.lookup name)
  | .array items => if items.length = names.length then some (items.map some) else none
  | _ => none

/-- A field that must be there. -/
def required? {β : Type} (value? : Source → Option β) (field : Option Source) : Option β :=
  field.bind value?

/-- A field that may be absent. -/
def optional? {β : Type} (value? : Source → Option β) : Option Source → Option (Option β)
  | none => some none
  | some source => nullable? value? source

/-- Reads a document that must have a meaning throughout. -/
def sound? {β : Type} (value? : Source → Option β) (source : Source) : Option β :=
  if source.isSound depthLimit then value? source else none

/-- Reads the document that a text holds. -/
def read? {β : Type} (value? : Source → Option β) (text : String) : Option β :=
  (ofText? text.toList).bind value?

end Significance.Json.Source
