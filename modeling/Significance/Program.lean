import Significance.CommandLine
import Significance.FileTree
import Significance.Report

/-!
# The program

What the program does is a plan, made from the command line and the files that it names before
anything is written. A plan is carried out step by step, and the first step that fails ends it.
-/

namespace Significance.Program

open Loading (Found)
open Report (Medium Moment)

/-- A step of a plan. -/
inductive Action
  | say (text : String)
  | complain (text : String)
  | makeDirectories (path : String)
  | write (path content : String) (medium : Medium)

/-- Steps, and the status that the program ends with if none of them fails. -/
structure Plan where
  actions : List Action
  status : Nat

/-- The name and the version that the program gives itself. -/
def programName : String := "rust_anova"

def version : String := "0.1.0"

/-- The line that names the program. -/
def title : String := programName ++ " v" ++ version ++ "\n"

/-- What is said when no command is given. -/
def hint : String :=
  title ++ "Run \x60" ++ programName ++ " -h\x60 for usage or \x60" ++ programName
    ++ " --help\x60 for detailed information.\n"

def shortHelp : String :=
  title ++ "\nUsage: " ++ programName ++ " <COMMAND> [OPTIONS]\n\nCommands:\n"
    ++ "  anova      Run ANOVA and Tukey HSD on experiment results\n"
    ++ "  compare    Compare a metric across an experiment parameter\n\n"
    ++ "Run \x60" ++ programName ++ " <COMMAND> -h\x60 for command-specific options.\n"

def longHelp : String :=
  title ++ "Significance analysis of experiment results\n\nUsage: " ++ programName
    ++ " <COMMAND> [OPTIONS]\n\nCommands:\n"
    ++ "  anova      Run ANOVA and Tukey HSD on experiment results\n"
    ++ "               - RPD normalization against the best observed value\n"
    ++ "               - One-way ANOVA for a single grouping variable\n"
    ++ "               - Type II multi-way ANOVA with all interactions\n"
    ++ "               - Tukey HSD on every significant main effect\n"
    ++ "  compare    Mean and 95% CI of a metric per parameter value and algorithm\n\n"
    ++ "Global Options:\n"
    ++ "  -v, --verbose    Enable verbose output\n"
    ++ "  -h               Print short help\n"
    ++ "      --help       Print detailed help\n"
    ++ "  -V, --version    Print version\n\n"
    ++ "Examples:\n"
    ++ "  " ++ programName ++ " anova -i results.jsonl -t elecCost -g strategy -o out\n\n"
    ++ "  " ++ programName
    ++ " anova -i results.csv -t elecCost -g strategy -g ascending -o out\n\n"
    ++ "  " ++ programName
    ++ " compare -i results.jsonl -x deadlineFactor -y elecCost --hue name\n"

/-- The answer to words without a command. -/
def withoutCommand (words : List String) : String :=
  if words.isEmpty then hint
  else if words.contains "--help" then longHelp
  else if words.contains "-h" then shortHelp
  else if words.contains "-V" ∨ words.contains "--version" then
    programName ++ " " ++ version ++ "\n"
  else hint

/-- The first word that does not start with a hyphen. -/
def firstPlain? (words : List String) : Option String :=
  words.find? fun word => word.toList.head? ≠ some '-'

/-- Whether the words ask for a command. -/
def asksForCommand (words : List String) : Bool :=
  match firstPlain? words with
  | some word => CommandLine.commandNames.contains word
  | none => false

/-- The complaint about an error that ends the program. -/
def lastWords (e : Error Float) : Action :=
  .complain ("Error: " ++ e.message ++ "\n")

/-- The plan of a program that fails at once. -/
def failed (e : Error Float) : Plan :=
  ⟨[lastWords e], 1⟩

/-- The name that output files take from an input path. -/
def baseName (path : String) : String :=
  (Path.stem? path).getD "results"

/-- The step that writes a file into a directory. -/
def writeInto (directory : String) (artifact : Report.Artifact) : Action :=
  .write (Path.join directory artifact.name) artifact.content artifact.medium

/-- The options of an analysis. -/
def analysisOptions (arguments : AnovaArguments) : Analysis.Options Float :=
  { normalize := !arguments.raw, reference := arguments.reference
    sense := if arguments.higherIsBetter then .higherIsBetter else .lowerIsBetter }

/-- The jobs of an analysis, one for every input, under different names. -/
def jobs (arguments : AnovaArguments) (found : String → Found) :
    Except (Error Float) (List (Analysis.Job Float)) :=
  let names := FileStem.unique (arguments.inputs.map baseName)
  (arguments.inputs.zip names).mapM fun (path, name) => do
    let data ← Loading.load path (found path)
    return { name, data, target := arguments.target, factors := arguments.factors
             options := analysisOptions arguments }

/-- The result of a job under its name. -/
abbrev JobResult := String × Except (Error Float) (Analysis Float)

/-- The steps for the result of a job. -/
def resultActions (output : String) (time : Moment) : JobResult → List Action
  | (name, .error e) => [.complain ("Error in " ++ name ++ ": " ++ e.message ++ "\n")]
  | (name, .ok analysis) =>
    .say (analysis.text time.clock ++ "\n") :: .makeDirectories output
      :: (Report.bundle name time analysis).map (writeInto output)

/-- Whether a job failed. -/
def isFailure (result : JobResult) : Bool :=
  match result.2 with
  | .ok _ => false
  | .error _ => true

/-- Whether a job came upon a statistic without a tail, which no report survives. -/
def isBroken (result : JobResult) : Bool :=
  match result.2 with
  | .error .undefinedTail => true
  | _ => false

/-- The status of a program that breaks off. -/
def brokenStatus : Nat := 101

/-- The plan for the results of all jobs. -/
def planResults (output : String) (time : Moment) (results : List JobResult) : Plan :=
  let actions := results.flatMap (resultActions output time)
  let failures := (results.filter isFailure).length
  if results.any isBroken then ⟨[], brokenStatus⟩
  else if failures = 0 then ⟨actions, 0⟩
  else ⟨actions ++ [lastWords (.invalidInput (.failedAnalyses failures results.length))], 1⟩

/-- The plan of the command `anova`. -/
def planAnova (d : Distribution Float) (arguments : AnovaArguments) (time : Moment)
    (found : String → Found) : Plan :=
  match jobs arguments found with
  | .error e => failed e
  | .ok jobs => planResults arguments.output time (Analysis.batch d jobs)

/-- The options of a comparison. -/
def comparisonOptions (arguments : CompareArguments) : Comparison.Options Float :=
  { normalize := !arguments.raw, reference := none, sense := .lowerIsBetter
    cleanLabels := !arguments.keepLabels }

/-- The file of a comparison. -/
def comparisonArtifact (arguments : CompareArguments) (comparison : Comparison Float) :
    Report.Artifact :=
  { name := baseName arguments.input ++ "_" ++ arguments.x ++ "_" ++ comparison.yField ++ ".csv"
    content := Report.comparisonText comparison
    medium := .delimited }

/-- The plan of the command `compare`. -/
def planCompare (d : Distribution Float) (arguments : CompareArguments)
    (found : String → Found) : Plan :=
  let comparison := do
    let data ← Loading.load arguments.input (found arguments.input)
    Comparison.run d data arguments.x arguments.y arguments.hue (comparisonOptions arguments)
  match comparison with
  | .error e => failed e
  | .ok comparison =>
    ⟨[.makeDirectories arguments.output,
      writeInto arguments.output (comparisonArtifact arguments comparison)], 0⟩

/-- The plan for a command line that is refused, or that asks for help. -/
def planFault : CommandLine.Fault → Plan
  | .help => ⟨[.say longHelp], 0⟩
  | _ => ⟨[.complain "error: the command line cannot be read\n"], 2⟩

/-- The files that a command line names as inputs. -/
def inputs (words : List String) : List String :=
  if asksForCommand words then
    match CommandLine.ofWords words with
    | .ok ⟨_, some (.anova arguments)⟩ => arguments.inputs
    | .ok ⟨_, some (.compare arguments)⟩ => [arguments.input]
    | .ok ⟨_, none⟩ => []
    | .error _ => []
  else []

/-- The plan of the program. -/
def plan (d : Distribution Float) (words : List String) (time : Moment)
    (found : String → Found) : Plan :=
  if asksForCommand words then
    match CommandLine.ofWords words with
    | .ok ⟨_, some (.anova arguments)⟩ => planAnova d arguments time found
    | .ok ⟨_, some (.compare arguments)⟩ => planCompare d arguments found
    | .ok ⟨_, none⟩ => ⟨[.say hint], 0⟩
    | .error fault => planFault fault
  else ⟨[.say (withoutCommand words)], 0⟩

/-- The error of a file that cannot be written. -/
def writeError : Medium → Error Float
  | .delimited => .delimited .unreadable
  | .plain => .fileAccess

/-- What a plan has led to. -/
structure Outcome where
  tree : FileTree
  said : List String
  complaints : List String
  status : Nat

namespace Outcome

/-- Ends with a complaint about an error. -/
def fail (outcome : Outcome) (e : Error Float) : Outcome :=
  { outcome with complaints := outcome.complaints ++ ["Error: " ++ e.message ++ "\n"], status := 1 }

/-- Carries out steps one after another up to the first that fails. -/
def follow (outcome : Outcome) : List Action → Outcome
  | [] => outcome
  | .say text :: rest => { outcome with said := outcome.said ++ [text] }.follow rest
  | .complain text :: rest =>
    { outcome with complaints := outcome.complaints ++ [text] }.follow rest
  | .makeDirectories path :: rest =>
    match outcome.tree.makeDirectories? path with
    | some tree => { outcome with tree }.follow rest
    | none => outcome.fail .fileAccess
  | .write path content medium :: rest =>
    match outcome.tree.write? path content with
    | some tree => { outcome with tree }.follow rest
    | none => outcome.fail (writeError medium)

end Outcome

/-- Runs the program in a file tree. -/
def run (d : Distribution Float) (words : List String) (time : Moment) (tree : FileTree) :
    Outcome :=
  let plan := plan d words time tree.find
  { tree, said := [], complaints := [], status := plan.status : Outcome }.follow plan.actions

end Significance.Program
