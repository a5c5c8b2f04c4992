import SnapshotCatalog.Json.Basic
import SnapshotCatalog.Json.Number
/-!
Reading JSON. A reader takes characters off the front of a text and returns the rest. Nothing
beyond the standard is accepted: no comma at an end, no leading zeros, no controls within texts,
and nothing but blanks after the value.
-/
namespace SnapshotCatalog.Json

def isBlank (c : Char) : Bool := c == ' ' || c == '\n' || c == '\t' || c == '\r'

/-- A text without the blanks at its front. -/
def skipBlanks (cs : List Char) : List Char := cs.dropWhile isBlank

/-- Takes an expected text off the front. -/
def expect? (expected : String) (cs : List Char) : Option (List Char) :=
  expected.toList.isPrefixOf? cs

/-- Takes one or more digits off the front. -/
def readDigits (cs : List Char) : Option (List Char × List Char) :=
  match cs.span Char.isDigit with
  | ([], _) => none
  | cut => some cut

/-- Takes the whole part of a number off the front. It begins with a zero only if it is zero. -/
def readWhole (cs : List Char) : Option (List Char × List Char) :=
  match readDigits cs with
  | some ('0' :: _ :: _, _) => none
  | cut => cut

/-- Takes the fraction of a number off the front, if it has one. -/
def readFraction (cs : List Char) : Option (List Char × List Char) :=
  match cs with
  | '.' :: rest => readDigits rest
  | _ => some ([], cs)

/-- Takes an exponent without its letter off the front. -/
def readSignedDigits (cs : List Char) : Option (Int × List Char) :=
  match cs with
  | '-' :: rest => (readDigits rest).map fun (digits, rest) => (-(valueOf digits : Int), rest)
  | '+' :: rest => (readDigits rest).map fun (digits, rest) => (valueOf digits, rest)
  | _ => (readDigits cs).map fun (digits, rest) => (valueOf digits, rest)

/-- Takes the exponent of a number off the front, if it has one. -/
def readExponent (cs : List Char) : Option (Int × List Char) :=
  match cs with
  | 'e' :: rest => readSignedDigits rest
  | 'E' :: rest => readSignedDigits rest
  | _ => some (0, cs)

/-- Takes a number off the front. -/
def readNumber (cs : List Char) : Option (Json × List Char) := do
  let (whole, rest) ← readWhole (match cs with | '-' :: rest => rest | _ => cs)
  let (fraction, rest) ← readFraction rest
  let (exponent, rest) ← readExponent rest
  return (.number (scaled whole fraction exponent).isFinite, rest)

/-- The value of a hexadecimal digit in either case. -/
def hexValue? (c : Char) : Option Nat :=
  if c.isDigit then some (digitValue c)
  else if 'a' ≤ c && c ≤ 'f' then some (c.toNat - 'a'.toNat + 10)
  else if 'A' ≤ c && c ≤ 'F' then some (c.toNat - 'A'.toNat + 10)
  else none

/-- The character of an escape of one letter. -/
def shortEscape? (c : Char) : Option Char :=
  match c with
  | '"' => some '"'
  | '\\' => some '\\'
  | '/' => some '/'
  | 'b' => some '\x08'
  | 'f' => some '\x0c'
  | 'n' => some '\n'
  | 'r' => some '\r'
  | 't' => some '\t'
  | _ => none

/-- What a text is made of: characters, and code units that were written by number. -/
inductive Unit16 where
  | char (c : Char)
  | number (n : Nat)

/-- Takes a text without its opening quote off the front. -/
def readUnits : List Char → Option (List Unit16 × List Char)
  | [] => none
  | '"' :: rest => some ([], rest)
  | '\\' :: 'u' :: a :: b :: c :: d :: rest => do
    let digits ← [a, b, c, d].mapM hexValue?
    let (units, rest) ← readUnits rest
    return (.number (digits.foldl (fun value d => value * 16 + d) 0) :: units, rest)
  | '\\' :: c :: rest => do
    let c ← shortEscape? c
    let (units, rest) ← readUnits rest
    return (.char c :: units, rest)
  | c :: rest => do
    if c.toNat < 0x20 || c == '\\' then none
    else
      let (units, rest) ← readUnits rest
      return (.char c :: units, rest)

def isUpperHalf (n : Nat) : Bool := 0xd800 ≤ n && n ≤ 0xdbff

def isLowerHalf (n : Nat) : Bool := 0xdc00 ≤ n && n ≤ 0xdfff

/-- The characters that units make up. The two halves of a pair must follow one another. -/
def ofUnits? : List Unit16 → Option (List Char)
  | [] => some []
  | .char c :: rest => (ofUnits? rest).map (c :: ·)
  | .number n :: rest =>
    if isUpperHalf n then
      match rest with
      | .number m :: rest =>
        if isLowerHalf m then
          (ofUnits? rest).map (Char.ofNat (0x10000 + (n - 0xd800) * 0x400 + (m - 0xdc00)) :: ·)
        else none
      | _ => none
    else if isLowerHalf n then none
    else (ofUnits? rest).map (Char.ofNat n :: ·)

/-- Takes a text without its opening quote off the front. -/
def readText (cs : List Char) : Option (Option String × List Char) := do
  let (units, rest) ← readUnits cs
  return ((ofUnits? units).map String.ofList, rest)

mutual

/-- Takes a value off the front. Each reader of something that holds values has one step fewer to
spend than its caller, and the length of the text is enough for every value. -/
def readValue (steps : Nat) (cs : List Char) : Option (Json × List Char) :=
  match steps with
  | 0 => none
  | steps + 1 =>
    match skipBlanks cs with
    | '\x7b' :: rest =>
      match skipBlanks rest with
      | '\x7d' :: rest => some (.object [], rest)
      | rest => (readFields steps rest).map fun (fields, rest) => (.object fields, rest)
    | '[' :: rest =>
      match skipBlanks rest with
      | ']' :: rest => some (.array [], rest)
      | rest => (readItems steps rest).map fun (items, rest) => (.array items, rest)
    | '"' :: rest => (readText rest).map fun (value, rest) => (.text value, rest)
    | 'n' :: rest => (expect? "ull" rest).map (.null, ·)
    | 't' :: rest => (expect? "rue" rest).map (.bool true, ·)
    | 'f' :: rest => (expect? "alse" rest).map (.bool false, ·)
    | rest => readNumber rest

/-- Takes one or more items and the end of their array off the front. -/
def readItems (steps : Nat) (cs : List Char) : Option (List Json × List Char) :=
  match steps with
  | 0 => none
  | steps + 1 =>
    match readValue steps cs with
    | none => none
    | some (item, rest) =>
      match skipBlanks rest with
      | ']' :: rest => some ([item], rest)
      | ',' :: rest => (readItems steps rest).map fun (items, rest) => (item :: items, rest)
      | _ => none

/-- Takes one or more fields and the end of their object off the front. -/
def readFields (steps : Nat) (cs : List Char) :
    Option (List (Option String × Json) × List Char) :=
  match steps with
  | 0 => none
  | steps + 1 =>
    match skipBlanks cs with
    | '"' :: rest =>
      match readText rest with
      | none => none
      | some (name, rest) =>
        match skipBlanks rest with
        | ':' :: rest =>
          match readValue steps rest with
          | none => none
          | some (value, rest) =>
            match skipBlanks rest with
            | '\x7d' :: rest => some ([(name, value)], rest)
            | ',' :: rest =>
              (readFields steps rest).map fun (fields, rest) => ((name, value) :: fields, rest)
            | _ => none
        | _ => none
    | _ => none

end

/-- The value that a whole text spells. -/
def read? (s : String) : Option Json :=
  match readValue (2 * s.length + 2) s.toList with
  | some (value, rest) => if (skipBlanks rest).isEmpty then some value else none
  | none => none

end SnapshotCatalog.Json
