import SnapshotCatalog.Text.Bytes
import SnapshotCatalog.Text.Numeral
import SnapshotCatalog.Wire.Varint
/-!
Fields of a message. A field is a key, which holds its tag and its wire type, and a payload whose
extent the wire type gives. Readers work on all the bytes that remain of the whole input, so a
length inside a nested message is checked against the whole and not against that message; a
nested message that ran past its end is found out afterwards. A reader that knows nothing about a
field can still skip it.
-/
namespace SnapshotCatalog.Wire

inductive WireType where
  | varint
  | sixtyFourBit
  | lengthDelimited
  | startGroup
  | endGroup
  | thirtyTwoBit
  deriving DecidableEq, Repr

def WireType.code : WireType → Nat
  | .varint => 0
  | .sixtyFourBit => 1
  | .lengthDelimited => 2
  | .startGroup => 3
  | .endGroup => 4
  | .thirtyTwoBit => 5

def WireType.ofCode? : Nat → Option WireType
  | 0 => some .varint
  | 1 => some .sixtyFourBit
  | 2 => some .lengthDelimited
  | 3 => some .startGroup
  | 4 => some .endGroup
  | 5 => some .thirtyTwoBit
  | _ => none

def WireType.name : WireType → String
  | .varint => "Varint"
  | .sixtyFourBit => "SixtyFourBit"
  | .lengthDelimited => "LengthDelimited"
  | .startGroup => "StartGroup"
  | .endGroup => "EndGroup"
  | .thirtyTwoBit => "ThirtyTwoBit"

/-- What stops a reader. -/
inductive Fault where
  | badVarint
  | bigKey (value : Nat)
  | badWireType (code : Nat)
  | zeroTag
  | wrongWireType (found expected : WireType)
  | underflow
  | overrun
  | notText
  | strayGroupEnd
  | tooDeep
  deriving DecidableEq, Repr

def Fault.message : Fault → String
  | .badVarint => "invalid varint"
  | .bigKey value => "invalid key value: " ++ Numeral.ofNat value
  | .badWireType code => "invalid wire type value: " ++ Numeral.ofNat code
  | .zeroTag => "invalid tag value: 0"
  | .wrongWireType found expected =>
    "invalid wire type: " ++ found.name ++ " (expected " ++ expected.name ++ ")"
  | .underflow => "buffer underflow"
  | .overrun => "delimited length exceeded"
  | .notText => "invalid string value: data is not UTF-8 encoded"
  | .strayGroupEnd => "unexpected end group tag"
  | .tooDeep => "recursion limit reached"

/-- A fault and the known fields around it, the innermost first. -/
structure DecodeError where
  fields : List (String × String)
  fault : Fault
  deriving DecidableEq, Repr

def DecodeError.message (e : DecodeError) : String :=
  "failed to decode Protobuf message: " ++
    String.join (e.fields.map fun (message, field) => message ++ "." ++ field ++ ": ") ++
    e.fault.message

/-- A reader takes bytes from the front of what remains of the input. -/
abbrev Reader := StateT (List UInt8) (Except DecodeError)

def fail {α : Type} (fault : Fault) : Reader α := fun _ => .error ⟨[], fault⟩

/-- Records the known field in which a fault arises. -/
def within {α : Type} (message field : String) (reader : Reader α) : Reader α := fun input =>
  match reader input with
  | .ok read => .ok read
  | .error e => .error ⟨e.fields ++ [(message, field)], e.fault⟩

/-- How many bytes remain. -/
def remaining : Reader Nat := fun input => .ok (input.length, input)

structure Key where
  tag : Nat
  wireType : WireType

def readVarint : Reader Nat := fun input =>
  match readVarint? input with
  | some read => .ok read
  | none => fail .badVarint input

/-- Reads a key. It has at most 32 bits, its lower three bits name the wire type and the tag is
not zero; these are checked in that order. -/
def readKey : Reader Key := do
  let value ← readVarint
  if UInt32.size ≤ value then fail (.bigKey value)
  else
    match WireType.ofCode? (value % 8) with
    | none => fail (.badWireType (value % 8))
    | some wireType => if value / 8 = 0 then fail .zeroTag else pure ⟨value / 8, wireType⟩

def expect (expected found : WireType) : Reader Unit :=
  if found = expected then pure () else fail (.wrongWireType found expected)

/-- Takes a payload of the given size. -/
def take (size : Nat) : Reader (List UInt8) := fun input =>
  if input.length < size then fail .underflow input else .ok (input.splitAt size)

/-- Reads a number in a field. -/
def readNumber (wireType : WireType) : Reader Nat := do
  expect .varint wireType
  readVarint

/-- Reads a text in a field. -/
def readText (wireType : WireType) : Reader String := do
  expect .lengthDelimited wireType
  let size ← readVarint
  let data ← take size
  match Text.ofBytes? data with
  | some s => pure s
  | none => fail .notText

/-- Skips the payload of a field that is not a group. -/
def skipPlain : WireType → Reader Unit
  | .varint => discard readVarint
  | .thirtyTwoBit => discard (take 4)
  | .sixtyFourBit => discard (take 8)
  | .lengthDelimited => do
    let size ← readVarint
    discard (take size)
  | .startGroup | .endGroup => fail .strayGroupEnd

/-- Skips to the end of the outermost of the groups that are open, given by their tags with the
innermost first. Inside as many groups as there are levels nothing may be skipped any more. Each
round takes at least a byte, so as many rounds as there are bytes suffice. -/
def skipGroups (levels : Nat) : (rounds : Nat) → (tags : List Nat) → Reader Unit
  | _, [] => pure ()
  | 0, _ :: _ => fail .badVarint
  | rounds + 1, tag :: outer => do
    let key ← readKey
    if key.wireType = .endGroup then
      if key.tag = tag then skipGroups levels rounds outer else fail .strayGroupEnd
    else if levels ≤ (tag :: outer).length then fail .tooDeep
    else if key.wireType = .startGroup then
      skipGroups levels rounds (key.tag :: tag :: outer)
    else do
      skipPlain key.wireType
      skipGroups levels rounds (tag :: outer)

/-- Skips an unknown field, with the given number of levels left. -/
def skipField (levels : Nat) (key : Key) : Reader Unit :=
  if levels = 0 then fail .tooDeep
  else if key.wireType = .startGroup then do
    let size ← remaining
    skipGroups levels size.succ [key.tag]
  else skipPlain key.wireType

/-- Merges one field after the other into a value until no more than `stop` bytes remain. Each
round takes at least a byte, so as many rounds as there are bytes suffice. -/
def mergeFields {α : Type} (stop : Nat) (merge : Key → α → Reader α) :
    (rounds : Nat) → α → Reader α
  | 0, value => pure value
  | rounds + 1, value => do
    if (← remaining) ≤ stop then pure value
    else do
      let key ← readKey
      let value ← merge key value
      mergeFields stop merge rounds value

/-- Merges the fields of a nested message, whose length stands in front of it. There must be a
level left for it. -/
def mergeNested {α : Type} (levels : Nat) (merge : (levels : Nat) → Key → α → Reader α)
    (value : α) : Reader α :=
  match levels with
  | 0 => fail .tooDeep
  | inner + 1 => do
    let size ← readVarint
    let whole ← remaining
    if whole < size then fail .underflow
    else do
      let value ← mergeFields (whole - size) (merge inner) whole value
      if (← remaining) = whole - size then pure value else fail .overrun

/-- Merges the fields of a whole message. -/
def mergeAll {α : Type} (merge : Key → α → Reader α) (value : α) (input : List UInt8) :
    Except DecodeError α :=
  (mergeFields 0 merge input.length value).run' input

/-- The levels of nesting that a reader follows. -/
def levels : Nat := 100

/-! ### Writing -/

def key (tag : Nat) (wireType : WireType) : List UInt8 := varint (tag * 8 + wireType.code)

/-- A payload with its length in front. -/
def delimited (payload : List UInt8) : List UInt8 := varint payload.length ++ payload

/-- A number. Zero is not written. -/
def numberField (tag n : Nat) : List UInt8 :=
  if n = 0 then [] else key tag .varint ++ varint n

/-- A text. The empty text is not written. -/
def textField (tag : Nat) (s : String) : List UInt8 :=
  if s = "" then [] else key tag .lengthDelimited ++ delimited (Text.bytes s)

/-- A nested message. It is written even if it has no fields. -/
def nestedField (tag : Nat) (payload : List UInt8) : List UInt8 :=
  key tag .lengthDelimited ++ delimited payload

end SnapshotCatalog.Wire
