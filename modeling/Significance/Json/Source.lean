import Significance.Json.Literal

/-!
# JSON documents as written

A source is what the grammar makes of a text. Numbers keep their digits and texts may hold half of a
surrogate pair, because a reader that skips a part of a document does not look at their meaning.
-/

namespace Significance.Json

/-- A document; a text with half of a surrogate pair denotes none. -/
inductive Source
  | null
  | bool (b : Bool)
  | number (literal : Literal)
  | string (text : Option String)
  | array (items : List Source)
  | object (fields : List (Option String × Source))

namespace Source

/-- The code units of a text: characters, and halves of surrogate pairs where they were escaped. -/
abbrev Units := List Nat

/-- The characters of a text. A high half joins the low half after it; no half may be left over. -/
def join? : Units → Option (List Char)
  | [] => some []
  | high :: low :: rest =>
    if 0xD800 ≤ high ∧ high < 0xDC00 then
      if 0xDC00 ≤ low ∧ low < 0xE000 then
        (join? rest).map (Char.ofNat (0x10000 + (high - 0xD800) * 0x400 + (low - 0xDC00)) :: ·)
      else none
    else if 0xDC00 ≤ high ∧ high < 0xE000 then none
    else (join? (low :: rest)).map (Char.ofNat high :: ·)
  | [unit] => if 0xD800 ≤ unit ∧ unit < 0xE000 then none else some [Char.ofNat unit]

/-- White space between the parts of a document. -/
def isSpace (c : Char) : Bool :=
  c = ' ' || c = '\n' || c = '\t' || c = '\r'

/-- A text without white space before it. -/
def skip (text : List Char) : List Char :=
  text.dropWhile isSpace

/-- The value of a character as a hexadecimal digit. -/
def hexDigit? (c : Char) : Option Nat :=
  if '0' ≤ c ∧ c ≤ '9' then some (c.toNat - '0'.toNat)
  else if 'a' ≤ c ∧ c ≤ 'f' then some (c.toNat - 'a'.toNat + 10)
  else if 'A' ≤ c ∧ c ≤ 'F' then some (c.toNat - 'A'.toNat + 10)
  else none

/-- The code unit that four hexadecimal digits denote. -/
def hexUnit? (a b c d : Char) : Option Nat := do
  return (((← hexDigit? a) * 16 + (← hexDigit? b)) * 16 + (← hexDigit? c)) * 16 + (← hexDigit? d)

/-- The character that a letter after a backslash stands for. -/
def escape? (c : Char) : Option Nat :=
  match c with
  | '"' | '\\' | '/' => some c.toNat
  | 'b' => some 0x08
  | 'f' => some 0x0C
  | 'n' => some 0x0A
  | 'r' => some 0x0D
  | 't' => some 0x09
  | _ => none

/-- A text up to its closing quote, the opening one already read, and what follows. -/
def units? : List Char → Option (Units × List Char)
  | [] => none
  | '"' :: rest => some ([], rest)
  | '\\' :: 'u' :: a :: b :: c :: d :: rest => do
    let unit ← hexUnit? a b c d
    let (units, rest) ← units? rest
    return (unit :: units, rest)
  | '\\' :: c :: rest => do
    let unit ← escape? c
    let (units, rest) ← units? rest
    return (unit :: units, rest)
  | c :: rest =>
    if c.toNat < 0x20 ∨ c = '\\' then none
    else do
      let (units, rest) ← units? rest
      return (c.toNat :: units, rest)

/-- A text up to its closing quote, and what follows. -/
def string? (text : List Char) : Option (Option String × List Char) :=
  (units? text).map fun (units, rest) => ((join? units).map String.ofList, rest)

/-- The digits behind a point, at least one where there is a point. -/
def fraction? : List Char → Option (List Nat × List Char)
  | '.' :: rest =>
    match Decimal.spanDigits rest with
    | ([], _) => none
    | (digits, rest) => some (digits, rest)
  | text => some ([], text)

/-- The power of ten of a number, with a digit at least where there is one. -/
def power? : List Char → Option (Option (Bool × List Nat) × List Char)
  | [] => some (none, [])
  | c :: rest =>
    if c = 'e' ∨ c = 'E' then
      let (negative, rest) := Decimal.spanSign rest
      match Decimal.spanDigits rest with
      | ([], _) => none
      | (digits, rest) => some (some (negative, digits), rest)
    else some (none, c :: rest)

/-- The digits before the point: a zero, or digits that start with another one. -/
def whole? (text : List Char) : Option (List Nat × List Char) :=
  match Decimal.spanDigits text with
  | ([], _) => none
  | (0 :: _ :: _, _) => none
  | (digits, rest) => some (digits, rest)

/-- A number and what follows. -/
def literal? (text : List Char) : Option (Literal × List Char) := do
  let (negative, text) :=
    match text with
    | '-' :: rest => (true, rest)
    | text => (false, text)
  let (whole, text) ← whole? text
  let (fraction, text) ← fraction? text
  let (power, text) ← power? text
  return ({ negative, whole, fraction, power }, text)

mutual

/-- A document at the start of a text, with white space before it, and what follows. -/
def value? : Nat → List Char → Option (Source × List Char)
  | 0, _ => none
  | fuel + 1, text =>
    match skip text with
    | 'n' :: 'u' :: 'l' :: 'l' :: rest => some (.null, rest)
    | 't' :: 'r' :: 'u' :: 'e' :: rest => some (.bool true, rest)
    | 'f' :: 'a' :: 'l' :: 's' :: 'e' :: rest => some (.bool false, rest)
    | '"' :: rest => (string? rest).map fun (text, rest) => (.string text, rest)
    | '[' :: rest =>
      match skip rest with
      | ']' :: rest => some (.array [], rest)
      | rest => (items? fuel rest).map fun (items, rest) => (.array items, rest)
    | '{' :: rest =>
      match skip rest with
      | '}' :: rest => some (.object [], rest)
      | rest => (fields? fuel rest).map fun (fields, rest) => (.object fields, rest)
    | text => (literal? text).map fun (literal, rest) => (.number literal, rest)

/-- The items of an array, at least one, up to its closing bracket, and what follows. -/
def items? : Nat → List Char → Option (List Source × List Char)
  | 0, _ => none
  | fuel + 1, text => do
    let (item, text) ← value? fuel text
    match skip text with
    | ']' :: rest => return ([item], rest)
    | ',' :: rest =>
      let (items, rest) ← items? fuel rest
      return (item :: items, rest)
    | _ => none

/-- The fields of an object, at least one, up to its closing brace, and what follows. -/
def fields? : Nat → List Char → Option (List (Option String × Source) × List Char)
  | 0, _ => none
  | fuel + 1, text =>
    match skip text with
    | '"' :: rest => do
      let (name, text) ← string? rest
      match skip text with
      | ':' :: rest =>
        let (value, text) ← value? fuel rest
        match skip text with
        | '}' :: rest => return ([(name, value)], rest)
        | ',' :: rest =>
          let (fields, rest) ← fields? fuel rest
          return ((name, value) :: fields, rest)
        | _ => none
      | _ => none
    | _ => none

end

/-- The document that makes up a text. No nesting takes more steps than twice the number of
characters. -/
def ofText? (text : List Char) : Option Source :=
  match value? (2 * text.length + 2) text with
  | some (source, rest) => if (skip rest).isEmpty then some source else none
  | none => none

/-- Deepest nesting of arrays and objects that is read. -/
def depthLimit : Nat := 127

mutual

/-- Whether a document has a meaning throughout: every text is a text, every number is in range,
and arrays and objects are nested no deeper than `depth`. -/
def isSound (depth : Nat) : Source → Bool
  | .null => true
  | .bool _ => true
  | .number literal => literal.double?.isSome
  | .string text => text.isSome
  | .array items => 0 < depth && areSound (depth - 1) items
  | .object fields => 0 < depth && areSoundFields (depth - 1) fields

/-- Whether all documents of a list have a meaning. -/
def areSound (depth : Nat) : List Source → Bool
  | [] => true
  | item :: rest => item.isSound depth && areSound depth rest

/-- Whether all fields of an object have a meaning. -/
def areSoundFields (depth : Nat) : List (Option String × Source) → Bool
  | [] => true
  | (name, value) :: rest => name.isSome && value.isSound depth && areSoundFields depth rest

end

end Source

end Significance.Json
