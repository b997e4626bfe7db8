import Significance.Delimited
import Significance.Json.Data
import Significance.Path

/-!
# Reading result files

The extension of a file decides its format: rows of cells under a header, an array of records in
JSON, or one record in JSON on every line. A file without records is refused.
-/

namespace Significance.Loading

open Json (Source)

/-- What is found at a path. -/
inductive Found
  | nothing
  | directory
  | file (bytes : ByteArray)

/-- The formats of result files. -/
inductive Format
  | delimited
  | json
  | jsonLines
  deriving DecidableEq, Repr

/-- A text with the letters `A` to `Z` in lower case. -/
def lowerCase (text : String) : String :=
  String.ofList (text.toList.map Decimal.lowerLetter)

/-- The format of a path. -/
def Format.ofPath? (path : String) : Option Format := do
  match lowerCase (← Path.extension? path) with
  | "csv" => return .delimited
  | "json" => return .json
  | "jsonl" => return .jsonLines
  | _ => none

/-- The record of a row: every cell under its header; of equal headers the last counts. -/
def recordOfRow (header cells : List String) : Record (Value Float) :=
  Record.ofList ((header.zip cells).map fun (name, cell) => (name, Value.ofCell cell))

/-- A fault of a delimited file as an error. -/
def raise {β : Type} : Except DelimitedFault β → Except (Error Float) β
  | .ok x => .ok x
  | .error fault => .error (.delimited fault)

/-- The dataset of rows whose first one is the header. Every row has as many cells as the header. -/
def ofRows (path : String) (rows : List (List Delimited.Cell)) :
    Except (Error Float) (Dataset Float) := do
  let header ← raise (Delimited.texts (rows.headD []))
  if header.all String.isEmpty then
    throw (.emptyData (.headerRow path))
  let cells ← rows.tail.mapM fun row => raise (Delimited.textsOf header.length row)
  return ⟨cells.map (recordOfRow header)⟩

/-- Reads a delimited file. -/
def readDelimited (path : String) : Found → Except (Error Float) (Dataset Float)
  | .file bytes => ofRows path (Delimited.rows bytes.toList)
  | .nothing => .error (.delimited .unreadable)
  | .directory => .error (.delimited .unreadable)

/-- The record of an object of which only the last field of every name is read. -/
def recordOfLast? : Source → Option (Record (Value Float))
  | .object fields => do
    let fields ← Source.namedFields? fields
    Record.ofJson? (.object ((Record.ofList fields).fields.map fun (name, value) =>
      (some name, value)))
  | _ => none

/-- A result, or the error for a document that has not the expected form. -/
def orJson {β : Type} : Option β → Except (Error Float) β
  | some x => .ok x
  | none => .error .json

/-- What a document is where records are expected. -/
def kindOf : Source → String
  | .null => "null"
  | .bool _ => "a boolean"
  | .number _ => "a number"
  | .string _ => "a string"
  | .array _ => "an array"
  | .object _ => "an object"

/-- The records of a document: an array of objects, or a single object. -/
def ofDocument (source : Source) : Except (Error Float) (Dataset Float) :=
  match source with
  | .array items => (orJson (items.mapM recordOfLast?)).map Dataset.mk
  | .object fields => (orJson (recordOfLast? (.object fields))).map fun record => ⟨[record]⟩
  | source => .error (.invalidInput (.notRecords (kindOf source)))

/-- Reads a document of records. -/
def readJson : Found → Except (Error Float) (Dataset Float)
  | .file bytes => do
    let text ← orJson (String.fromUTF8? bytes)
    ofDocument (← orJson (Source.read? (Source.sound? some) text))
  | .nothing => .error .fileAccess
  | .directory => .error .json

/-- The lines of a file, each without its line feed and a carriage return before it. What follows
the last line feed is a line unless it is empty. -/
def linesFrom (line : List UInt8) : List UInt8 → List (List UInt8)
  | [] => if line.isEmpty then [] else [line.reverse]
  | b :: rest =>
    if b = 0x0A then
      let ended := match line with
        | 0x0D :: line => line
        | line => line
      ended.reverse :: linesFrom [] rest
    else linesFrom (b :: line) rest

/-- The lines of a file. -/
def lines (bytes : List UInt8) : List (List UInt8) :=
  linesFrom [] bytes

/-- The record on a line, unless the line is blank. -/
def recordOfLine (line : List UInt8) : Except (Error Float) (Option (Record (Value Float))) :=
  match String.fromUTF8? ⟨line.toArray⟩ with
  | none => .error .fileAccess
  | some text =>
    if Text.trim text = "" then .ok none
    else (orJson (Source.read? (Source.sound? Record.ofJson?) text)).map some

/-- Reads a file with one record on every line that is not blank. -/
def readJsonLines : Found → Except (Error Float) (Dataset Float)
  | .file bytes => do
    let records ← (lines bytes.toList).mapM recordOfLine
    return ⟨records.filterMap id⟩
  | .nothing => .error .fileAccess
  | .directory => .error .fileAccess

/-- Reads a file in a format. -/
def read (format : Format) (path : String) (found : Found) :
    Except (Error Float) (Dataset Float) :=
  match format with
  | .delimited => readDelimited path found
  | .json => readJson found
  | .jsonLines => readJsonLines found

/-- Reads a result file with one record at least. -/
def load (path : String) (found : Found) : Except (Error Float) (Dataset Float) :=
  match Format.ofPath? path with
  | none => .error (.unsupportedFormat path)
  | some format => do
    let data ← read format path found
    if data.isEmpty then
      throw (.emptyData (.recordsIn path))
    return data

end Significance.Loading
