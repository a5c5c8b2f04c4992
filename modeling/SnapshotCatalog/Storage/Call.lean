import SnapshotCatalog.Error
import SnapshotCatalog.Node.Layout
/-!
What a store of objects can be asked. Keys are flat texts. Creating an object where none is stored
is the only atomic step on which anything depends: of racing creations at one key exactly one
reports that it wrote.
-/
namespace SnapshotCatalog.Storage

/-- The content of an object: bytes, or a node file. -/
inductive Blob where
  | bytes (data : List UInt8)
  | node (file : Node.File)
  deriving DecidableEq

/-- The size in bytes. -/
def Blob.size : Blob → Nat
  | .bytes data => data.length
  | .node file => file.size

/-- The bytes as far as a reader of anything but node files looks at them. -/
def Blob.data : Blob → List UInt8
  | .bytes data => data
  | .node _ => Node.File.opening

/-- How a write treats an object that is stored already. -/
inductive WriteMode where
  | createNew
  | overwrite
  deriving DecidableEq, Repr

/-- What a write that did not fail found. -/
inductive WriteOutcome where
  | written
  | alreadyExists
  deriving DecidableEq, Repr

structure ObjectMeta where
  key : String
  size : Nat
  deriving DecidableEq, Repr

/-- One call to a store. -/
inductive Call where
  | get (key : String)
  | put (key : String) (blob : Blob) (mode : WriteMode)
  | delete (key : String)
  | list (start : String)
  | head (key : String)
  deriving DecidableEq

/-- What a call may answer when it does not fail. -/
@[reducible] def Call.Value : Call → Type
  | .get _ => Blob
  | .put .. => WriteOutcome
  | .delete _ => Unit
  | .list _ => List ObjectMeta
  | .head _ => Option ObjectMeta

/-- What a call answers. -/
@[reducible] def Call.Answer (c : Call) : Type := Except Error c.Value

/-- The key that a call is about, or the beginning of the keys that it lists. -/
def Call.key : Call → String
  | .get key => key
  | .put key _ _ => key
  | .delete key => key
  | .list start => start
  | .head key => key

/-- Whether a call may change what is stored. -/
def Call.isWrite : Call → Bool
  | .put .. => true
  | .delete _ => true
  | _ => false

/-- The error for an object that is not stored. -/
def noObject (key : String) : Error := .objectNotFound (.entity "object" key)

end SnapshotCatalog.Storage
