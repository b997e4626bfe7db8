import Significance.Program
import Std.Time.Format

/-!
# Running the program

Reads the input files, makes the plan and carries it out.
-/

namespace Significance.Program

open Loading (Found)
open Report (Moment)

/-- What is found at a path. -/
def look (path : String) : IO Found := do
  try
    return .file (← IO.FS.readBinFile path)
  catch e =>
    match e with
    | .inappropriateType .. => return .directory
    | _ => return .nothing

/-- The present time. -/
def present : IO Moment := do
  let time ← Std.Time.DateTime.now
  return { clock := time.format "uuuu-MM-dd HH:mm:ss"
           stamp := time.format "uuuu-MM-dd'T'HH:mm:ss.SSSSSSSSSXXX" }

/-- Does something that may fail, and tells whether it succeeded. -/
def succeeds (action : IO Unit) : IO Bool := do
  try
    action
    return true
  catch _ =>
    return false

/-- Makes the directories of a path; there are none to make for an empty one. -/
def makeDirectories (path : String) : IO Unit :=
  if path = "" then return else IO.FS.createDirAll path

/-- Carries out steps up to the first that fails, and returns the status of the program. -/
def perform (status : UInt32) : List Action → IO UInt32
  | [] => return status
  | .say text :: rest => do
    IO.print text
    perform status rest
  | .complain text :: rest => do
    IO.eprint text
    perform status rest
  | .makeDirectories path :: rest => do
    if ← succeeds (makeDirectories path) then
      perform status rest
    else
      IO.eprintln ("Error: " ++ (Error.fileAccess : Error Float).message)
      return 1
  | .write path content medium :: rest => do
    if ← succeeds (IO.FS.writeFile path content) then
      perform status rest
    else
      IO.eprintln ("Error: " ++ (writeError medium).message)
      return 1

/-- Runs the program on the words of its command line. -/
def start (words : List String) : IO UInt32 := do
  let files ← (inputs words).mapM fun path => return (path, ← look path)
  let found (path : String) : Found := (files.lookup path).getD .nothing
  let plan := plan Distribution.standard words (← present) found
  perform plan.status.toUInt32 plan.actions

end Significance.Program

/-- Runs the program on the words of its command line. -/
def main (words : List String) : IO UInt32 :=
  Significance.Program.start words
