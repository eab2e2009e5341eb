import LSystem.Json.Number

/-!
# Reading JSON texts

The reader takes a whole text to its tree.  Blanks are the space, the tabulator and the two line
ends; nothing but blanks may follow the value; commas and colons stand exactly where they
separate; and a string holds no control character.

## Strings

An escape stands for a code unit of 16 bits, so a character beyond the first plane is escaped as
a surrogate pair.  A string is first taken apart into units, a plain character being one, and the
units are then joined to characters.  A string whose units do not join is well-formed, but has no
value.

Reading is by recursion on a bound for the nesting and the number of items, for which the length
of the text is always enough, because every item and every container takes a character.
-/

namespace LSystem.Json

/-- Drops leading blanks. -/
def skipBlanks (cs : List Char) : List Char :=
  cs.dropWhile fun c => c = ' ' || c = '\t' || c = '\n' || c = '\r'

/-! ## Strings -/

/-- The value of a hexadecimal digit. -/
def hexValue? (c : Char) : Option Nat :=
  if '0' ≤ c ∧ c ≤ '9' then some (c.toNat - '0'.toNat)
  else if 'a' ≤ c ∧ c ≤ 'f' then some (c.toNat - 'a'.toNat + 10)
  else if 'A' ≤ c ∧ c ≤ 'F' then some (c.toNat - 'A'.toNat + 10)
  else none

/-- The code unit of four hexadecimal digits. -/
def unit? (a b c d : Char) : Option Nat := do
  return ((← hexValue? a) * 16 + (← hexValue? b)) * 256 + (← hexValue? c) * 16 + (← hexValue? d)

/-- The character that a letter after a backslash stands for. -/
def escape? : Char → Option Char
  | '"' => some '"'
  | '\\' => some '\\'
  | '/' => some '/'
  | 'b' => some '\x08'
  | 'f' => some '\x0c'
  | 'n' => some '\n'
  | 'r' => some '\r'
  | 't' => some '\t'
  | _ => none

/-- The units of a string up to its closing quote, and what follows it. -/
def readUnits : List Char → Option (List Nat × List Char)
  | [] => none
  | '"' :: rest => some ([], rest)
  | '\\' :: 'u' :: a :: b :: c :: d :: rest => do
    let unit ← unit? a b c d
    let (units, rest) ← readUnits rest
    return (unit :: units, rest)
  | '\\' :: e :: rest => do
    let c ← escape? e
    let (units, rest) ← readUnits rest
    return (c.toNat :: units, rest)
  | c :: rest =>
    if c.toNat < 0x20 then none
    else do
      let (units, rest) ← readUnits rest
      return (c.toNat :: units, rest)

/-- Whether a unit is the first half of a surrogate pair. -/
def isHighSurrogate (unit : Nat) : Bool := 0xD800 ≤ unit && unit < 0xDC00

/-- Whether a unit is the second half of a surrogate pair. -/
def isLowSurrogate (unit : Nat) : Bool := 0xDC00 ≤ unit && unit < 0xE000

/-- Joins units to characters; half a surrogate pair makes this impossible. -/
def joinUnits : List Nat → Option (List Char)
  | [] => some []
  | high :: low :: rest =>
    if isHighSurrogate high && isLowSurrogate low then
      let c := Char.ofNat (0x10000 + (high - 0xD800) * 0x400 + (low - 0xDC00))
      (joinUnits rest).map (c :: ·)
    else if isHighSurrogate high || isLowSurrogate high then none
    else (joinUnits (low :: rest)).map (Char.ofNat high :: ·)
  | [unit] =>
    if isHighSurrogate unit || isLowSurrogate unit then none else some [Char.ofNat unit]

/-- A string up to its closing quote, absent if it has no value, and what follows it. -/
def readString (cs : List Char) : Option (Option String × List Char) :=
  (readUnits cs).map fun (units, rest) => ((joinUnits units).map String.ofList, rest)

/-! ## Values -/

/-- The value of a word, and what follows it. -/
def readWord (cs : List Char) : Option (Json × List Char) :=
  match cs with
  | 'n' :: 'u' :: 'l' :: 'l' :: rest => some (null, rest)
  | 't' :: 'r' :: 'u' :: 'e' :: rest => some (bool true, rest)
  | 'f' :: 'a' :: 'l' :: 's' :: 'e' :: rest => some (bool false, rest)
  | _ => (Literal.read? cs).map fun (l, rest) => (l.value, rest)

/-- A field, if its name has a value. -/
def field : Option String × Json → Option (String × Json)
  | (some name, value) => some (name, value)
  | (none, _) => none

/-- The object of some fields, if all their names have a value. -/
def ofFields (fields : List (Option String × Json)) : Json :=
  ((fields.mapM field).map object).getD unreadable

mutual

/-- A value, and what follows it. -/
def readValue : Nat → List Char → Option (Json × List Char)
  | 0, _ => none
  | bound + 1, cs =>
    match skipBlanks cs with
    | '[' :: rest =>
      match skipBlanks rest with
      | ']' :: rest => some (array [], rest)
      | rest => (readItems bound rest).map fun (items, rest) => (array items, rest)
    | '{' :: rest =>
      match skipBlanks rest with
      | '}' :: rest => some (object [], rest)
      | rest => (readFields bound rest).map fun (fields, rest) => (ofFields fields, rest)
    | '"' :: rest =>
      (readString rest).map fun (s, rest) => ((s.map string).getD unreadable, rest)
    | rest => readWord rest

/-- The items of an array up to its end, and what follows it. -/
def readItems : Nat → List Char → Option (List Json × List Char)
  | 0, _ => none
  | bound + 1, cs => do
    let (item, rest) ← readValue bound cs
    match skipBlanks rest with
    | ']' :: rest => return ([item], rest)
    | ',' :: rest =>
      let (items, rest) ← readItems bound rest
      return (item :: items, rest)
    | _ => none

/-- The fields of an object up to its end, and what follows it. -/
def readFields : Nat → List Char → Option (List (Option String × Json) × List Char)
  | 0, _ => none
  | bound + 1, cs => do
    let '"' :: rest := skipBlanks cs | none
    let (name, rest) ← readString rest
    let ':' :: rest := skipBlanks rest | none
    let (value, rest) ← readValue bound rest
    match skipBlanks rest with
    | '}' :: rest => return ([(name, value)], rest)
    | ',' :: rest =>
      let (fields, rest) ← readFields bound rest
      return ((name, value) :: fields, rest)
    | _ => none

end

/-- Reads a whole text. -/
def read? (text : String) : Option Json :=
  let cs := text.toList
  match readValue (2 * cs.length + 1) cs with
  | some (value, rest) => if skipBlanks rest = [] then some value else none
  | none => none

end LSystem.Json
