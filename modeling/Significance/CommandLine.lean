import Significance.Decimal.Numeral

/-!
# The command line

A command has parameters that are given by a long name after two hyphens or by a letter after one.
Letters may be joined, and a value may follow in the same word or as the next one, which must not
look like a parameter. Of two faults the one that is met first counts, except that a word that fits
nowhere counts before the parameter that still waits for its value or for its turn.
-/

namespace Significance

/-- Why a command line is refused, or answered by help alone. -/
inductive CommandLine.Fault
  | unknownArgument
  | unknownCommand
  | repeated
  | valueMissing
  | valueUnreadable
  | valueUnexpected
  | required
  | help
  deriving DecidableEq, Repr

/-- How often a parameter may be given, and whether a value goes with it. -/
inductive CommandLine.Arity
  | switch
  | single
  | many
  deriving DecidableEq, Repr

/-- A parameter of a command. -/
structure CommandLine.Parameter where
  name : String
  letter : Option Char
  arity : CommandLine.Arity
  readable : String → Bool := fun _ => true

namespace CommandLine

/-- A whole number of 64 bits, with an optional plus sign. -/
def natural? (text : String) : Option Nat :=
  let digits := match text.toList with
    | '+' :: rest => rest
    | chars => chars
  match Decimal.spanDigits digits with
  | ([], _) => none
  | (values, []) =>
    let n := Decimal.ofDigits values
    if n < Decimal.twoTo 64 then some n else none
  | (_, _ :: _) => none

/-- The parameters given so far with their values, and the one whose turn has not come: it may still
take the next word. -/
structure Progress where
  given : List (String × List String)
  waiting : Option (Parameter × List String)

namespace Progress

/-- Nothing given yet. -/
def start : Progress := ⟨[], none⟩

/-- Whether a parameter was given. -/
def has (progress : Progress) (name : String) : Bool :=
  progress.given.any fun entry => entry.1 = name

/-- Enters a parameter with its values. -/
def enter (progress : Progress) (p : Parameter) (values : List String) :
    Except Fault Progress :=
  if p.arity ≠ .switch ∧ values.isEmpty then .error .valueMissing
  else if p.arity ≠ .many ∧ progress.has p.name then .error .repeated
  else if !values.all p.readable then .error .valueUnreadable
  else .ok { progress with given := progress.given ++ [(p.name, values)] }

/-- Enters the parameter that waits. -/
def settle (progress : Progress) : Except Fault Progress :=
  match progress.waiting with
  | none => .ok progress
  | some (p, values) => enter { progress with waiting := none } p values

/-- Enters a parameter after the one that waits. -/
def add (progress : Progress) (p : Parameter) (values : List String) :
    Except Fault Progress := do
  (← progress.settle).enter p values

/-- Lets a parameter wait for its value. -/
def await (progress : Progress) (p : Parameter) : Except Fault Progress := do
  return { (← progress.settle) with waiting := some (p, []) }

/-- All values of a parameter. -/
def values (progress : Progress) (name : String) : List String :=
  (progress.given.filter fun entry => entry.1 = name).flatMap fun entry => entry.2

/-- The value of a parameter. -/
def value? (progress : Progress) (name : String) : Option String :=
  (progress.values name).head?

end Progress

/-- A parameter by its name, with a value in the same word or not. -/
def takeName (params : List Parameter) (word : List Char) (progress : Progress) :
    Except Fault Progress :=
  let (name, rest) := word.span (· ≠ '=')
  match params.find? fun p => p.name.toList = name with
  | none => .error .unknownArgument
  | some p =>
    match p.arity, rest with
    | .switch, [] => progress.add p []
    | .switch, _ :: _ => .error .valueUnexpected
    | _, [] => progress.await p
    | _, _ :: value => progress.add p [String.ofList value]

/-- Parameters by their joined letters. What follows a letter that takes a value is that value,
after an equals sign or not. -/
def takeLetters (params : List Parameter) : List Char → Progress → Except Fault Progress
  | [], progress => .ok progress
  | c :: rest, progress =>
    match params.find? fun p => p.letter = some c with
    | none => .error .unknownArgument
    | some p =>
      if p.arity = .switch then do
        takeLetters params rest (← progress.add p [])
      else
        match rest with
        | [] => progress.await p
        | '=' :: value => progress.add p [String.ofList value]
        | value => progress.add p [String.ofList value]

/-- What a word is before its place is known. -/
inductive Shape
  | divider
  | name (word : List Char)
  | letters (word : List Char)
  | other

/-- The shape of a word; a single hyphen is a word like any other. -/
def shape (word : String) : Shape :=
  match word.toList with
  | ['-', '-'] => .divider
  | '-' :: '-' :: rest => .name rest
  | '-' :: c :: rest => .letters (c :: rest)
  | _ => .other

/-- Reads the words after a command. -/
def takeWords (params : List Parameter) : List String → Progress → Except Fault Progress
  | [], progress => progress.settle
  | word :: rest, progress =>
    match shape word with
    | .divider => if rest.isEmpty then progress.settle else .error .unknownArgument
    | .name w => do takeWords params rest (← takeName params w progress)
    | .letters w => do takeWords params rest (← takeLetters params w progress)
    | .other =>
      match progress.waiting with
      | some (p, []) => takeWords params rest { progress with waiting := some (p, [word]) }
      | _ => .error .unknownArgument

def verboseParameter : Parameter := ⟨"verbose", some 'v', .switch, fun _ => true⟩

/-- The parameters of the command `anova`. -/
def anovaParameters : List Parameter :=
  [{ name := "input", letter := some 'i', arity := .many },
    { name := "target", letter := some 't', arity := .single },
    { name := "group", letter := some 'g', arity := .many },
    { name := "output", letter := some 'o', arity := .single },
    { name := "no-rpd", letter := none, arity := .switch },
    { name := "reference", letter := none, arity := .single,
      readable := fun text => (Decimal.read? text).isSome },
    { name := "higher-is-better", letter := none, arity := .switch },
    { name := "threads", letter := some 'j', arity := .single,
      readable := fun text => (natural? text).isSome },
    verboseParameter]

/-- The parameters of the command `compare`. -/
def compareParameters : List Parameter :=
  [{ name := "input", letter := some 'i', arity := .single },
    { name := "x-axis", letter := some 'x', arity := .single },
    { name := "y-axis", letter := some 'y', arity := .single },
    { name := "hue", letter := none, arity := .single },
    { name := "output", letter := some 'o', arity := .single },
    { name := "no-rpd", letter := none, arity := .switch },
    { name := "keep-labels", letter := none, arity := .switch },
    verboseParameter]

end CommandLine

/-- What the command `anova` is asked to do. -/
structure AnovaArguments where
  inputs : List String
  target : String
  factors : List String
  output : String
  raw : Bool
  reference : Option Float
  higherIsBetter : Bool
  threads : Nat

/-- What the command `compare` is asked to do. -/
structure CompareArguments where
  input : String
  x : String
  y : String
  hue : Option String
  output : String
  raw : Bool
  keepLabels : Bool

/-- A command with its arguments. -/
inductive Command
  | anova (arguments : AnovaArguments)
  | compare (arguments : CompareArguments)

/-- A command line. -/
structure CommandLine where
  verbose : Bool
  command : Option Command

namespace CommandLine

/-- The arguments of the command `anova`. -/
def anovaArguments (progress : Progress) : Except Fault AnovaArguments :=
  let inputs := progress.values "input"
  let factors := progress.values "group"
  if inputs.isEmpty ∨ factors.isEmpty then .error .required
  else
    .ok { inputs, factors
          target := (progress.value? "target").getD "elecCost"
          output := (progress.value? "output").getD "."
          raw := progress.has "no-rpd"
          reference := (progress.value? "reference").bind Decimal.read?
          higherIsBetter := progress.has "higher-is-better"
          threads := ((progress.value? "threads").bind natural?).getD 0 }

/-- The arguments of the command `compare`. -/
def compareArguments (progress : Progress) : Except Fault CompareArguments :=
  match progress.value? "input" with
  | none => .error .required
  | some input =>
    .ok { input
          x := (progress.value? "x-axis").getD "deadlineFactor"
          y := (progress.value? "y-axis").getD "elecCost"
          hue := progress.value? "hue"
          output := (progress.value? "output").getD "."
          raw := progress.has "no-rpd"
          keepLabels := progress.has "keep-labels" }

/-- The names of the commands. -/
def commandNames : List String := ["anova", "compare", "help"]

/-- The answer to a request for help, which names one command at most. -/
def helpFault : List String → Fault
  | [] => .help
  | [name] => if commandNames.contains name then .help else .unknownCommand
  | _ => .unknownCommand

/-- Reads a command with the words after it, given what stood before it. -/
def ofCommand (before : Progress) (name : String) (words : List String) :
    Except Fault CommandLine := do
  match name with
  | "anova" =>
    let progress ← takeWords anovaParameters words .start
    let arguments ← anovaArguments progress
    return ⟨before.has "verbose" || progress.has "verbose", some (.anova arguments)⟩
  | "compare" =>
    let progress ← takeWords compareParameters words .start
    let arguments ← compareArguments progress
    return ⟨before.has "verbose" || progress.has "verbose", some (.compare arguments)⟩
  | _ => .error (helpFault words)

/-- Reads the words up to a command. -/
def ofWordsAfter (progress : Progress) : List String → Except Fault CommandLine
  | [] => .ok ⟨progress.has "verbose", none⟩
  | word :: rest =>
    if commandNames.contains word then ofCommand progress word rest
    else
      match shape word with
      | .divider =>
        match rest with
        | [] => .ok ⟨progress.has "verbose", none⟩
        | next :: _ =>
          .error (if commandNames.contains next then .unknownArgument else .unknownCommand)
      | .name w => do ofWordsAfter (← takeName [verboseParameter] w progress) rest
      | .letters w => do ofWordsAfter (← takeLetters [verboseParameter] w progress) rest
      | .other => .error .unknownCommand

/-- Reads a command line, the name of the program apart. -/
def ofWords (words : List String) : Except Fault CommandLine :=
  ofWordsAfter .start words

end CommandLine

end Significance
