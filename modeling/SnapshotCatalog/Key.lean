import SnapshotCatalog.Definition.Basic
import SnapshotCatalog.Error
/-!
Names and the keys made from them. A key is a mark of four bytes followed by its names, each padded
with spaces to the size that the lakehouse allows, so keys of one kind have one size, the tables of
a namespace share the beginning of their keys, and byte order of keys is order of names. Rows that
describe the root itself have short keys of their own, none of which begins with a mark.
-/
namespace SnapshotCatalog

/-- The largest sizes of names, in bytes. -/
structure KeyLimits where
  ns : Nat
  table : Nat
  deriving DecidableEq, Repr

def LakehouseDef.keyLimits (d : LakehouseDef) : KeyLimits :=
  ⟨d.namespaceNameMax.toNat, d.tableNameMax.toNat⟩

namespace Name

/-- Whether a character is kept out of names because keys are padded with spaces and written to
logs: the space and the ASCII controls. -/
def isReserved (c : Char) : Bool := c.toNat < 0x20 || c.toNat == 0x7f || c == ' '

/-- Whether a character is kept out of names because names become parts of paths. -/
def isPathCharacter (c : Char) : Bool := c == '/' || c == '\\' || c == '%'

/-- The first rule that a name of this kind breaks. -/
def fault? (kind name : String) (limit : Nat) : Option NameFault :=
  if name = "" then some (.missing kind)
  else if limit < name.utf8ByteSize then some (.tooLong kind name limit)
  else
    match name.toList.find? isReserved with
    | some c => some (.reserved kind name c)
    | none => (name.toList.find? isPathCharacter).map (.pathCharacter kind name)

def check (kind name : String) (limit : Nat) : Except Error Unit :=
  match fault? kind name limit with
  | some fault => .error (.invalidArgument (.name fault))
  | none => .ok ()

end Name

namespace Key

def lakehouseDef : String := "lakehouse_def"
def previousRoot : String := "previous_root"
def rollbackFromRoot : String := "rollback_from_root"
def createdAtMillis : String := "created_at_millis"
def rowCount : String := "n_keys"

/-- The keys of the rows that describe the root itself, in the order in which they are written. -/
def systemKeys : List String :=
  [lakehouseDef, previousRoot, rollbackFromRoot, createdAtMillis, rowCount]

def namespaceMark : String := "B==="
def tableMark : String := "C==="

/-- Views are reserved; no key of a view is ever written. -/
def viewMark : String := "D==="

def markSize : Nat := 4

/-- A name with spaces up to the given size. -/
def padded (name : String) (width : Nat) : String :=
  name ++ String.ofList (List.replicate (width - name.utf8ByteSize) ' ')

/-- The key of a namespace. -/
def ofNamespace (limits : KeyLimits) (ns : String) : Except Error String := do
  Name.check "namespace" ns limits.ns
  return namespaceMark ++ padded ns limits.ns

/-- How the keys of the tables of a namespace begin. -/
def tableStart (limits : KeyLimits) (ns : String) : Except Error String := do
  Name.check "namespace" ns limits.ns
  return tableMark ++ padded ns limits.ns

/-- The key of a table. -/
def ofTable (limits : KeyLimits) (ns table : String) : Except Error String := do
  let start ← tableStart limits ns
  Name.check "table" table limits.table
  return start ++ padded table limits.table

def isNamespaceKey (limits : KeyLimits) (key : String) : Bool :=
  Text.startsWith key namespaceMark && key.utf8ByteSize == markSize + limits.ns

def isTableKey (limits : KeyLimits) (key : String) : Bool :=
  Text.startsWith key tableMark && key.utf8ByteSize == markSize + limits.ns + limits.table

def isSystemKey (key : String) : Bool := systemKeys.contains key

/-- Whether a key begins with one of the marks. This needs no limits. -/
def hasMark (key : String) : Bool :=
  Text.startsWith key namespaceMark || Text.startsWith key tableMark ||
    Text.startsWith key viewMark

inductive Kind where
  | ns
  | table
  | view
  | system
  | unknown
  deriving DecidableEq, Repr

def Kind.name : Kind → String
  | .ns => "namespace"
  | .table => "table"
  | .view => "view"
  | .system => "system"
  | .unknown => "unknown"

def kindOf (limits : KeyLimits) (key : String) : Kind :=
  if isNamespaceKey limits key then .ns
  else if isTableKey limits key then .table
  else if Text.startsWith key viewMark then .view
  else if isSystemKey key then .system
  else .unknown

/-- A name without its padding. -/
def unpadded (cs : List Char) : String := String.ofList (Text.dropTrailing ' ' cs)

/-- The name that begins at one byte offset and goes up to another, or to the end. There is none
when an offset lies inside a character. -/
def component? (key : String) (start : Nat) (width : Option Nat) : Option String :=
  match Text.cutAtByte? start key.toList with
  | none => none
  | some (_, rest) =>
    match width with
    | none => some (unpadded rest)
    | some width => (Text.cutAtByte? width rest).map fun cut => unpadded cut.1

/-- The namespace that a namespace key names. -/
def namespaceName (limits : KeyLimits) (key : String) : Except Error String :=
  let name? := if isNamespaceKey limits key then component? key markSize none else none
  match name? with
  | some name => .ok name
  | none => .error (.invalidArgument (.namespaceKey key))

/-- The namespace that a table key names. -/
def tableNamespace (limits : KeyLimits) (key : String) : Except Error String :=
  let name? := if isTableKey limits key then component? key markSize (some limits.ns) else none
  match name? with
  | some name => .ok name
  | none => .error (.invalidArgument (.tableKey key))

/-- The table that a table key names. -/
def tableName (limits : KeyLimits) (key : String) : Except Error String :=
  let name? := if isTableKey limits key then component? key (markSize + limits.ns) none else none
  match name? with
  | some name => .ok name
  | none => .error (.invalidArgument (.tableKey key))

/-- Keys in byte order. -/
def sort (keys : List String) : List String := keys.mergeSort fun a b => !decide (Text.Before b a)

end Key

end SnapshotCatalog
