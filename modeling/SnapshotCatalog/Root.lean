import SnapshotCatalog.Key
/-!
A root is one snapshot of the catalog: rows from object keys to paths of definitions, and where the
snapshot comes from. A root that was stored knows its place and is never changed; a change to it
makes a private copy without a place and without a history.
-/
namespace SnapshotCatalog

/-- Milliseconds since the epoch. -/
abbrev Millis := Int64

/-- Where a root is stored. -/
structure Location where
  path : String
  version : Version
  deriving DecidableEq

/-- The place of a version. -/
def Location.ofVersion (v : Version) : Location := ⟨RootPath.ofVersion v, v⟩

structure Root where
  location : Option Location
  createdAt : Option Millis
  lakehouseDefPath : String
  previousRootPath : Option String
  rollbackFromRootPath : Option String
  rows : TextMap String
  deriving DecidableEq

namespace Root

/-- A root without rows that was not stored. -/
def new (lakehouseDefPath : String) : Root := ⟨none, none, lakehouseDefPath, none, none, .empty⟩

def isPersisted (r : Root) : Bool := r.location.isSome

def version? (r : Root) : Option Version := r.location.map (·.version)

/-- The same rows and lakehouse definition, and nothing else. -/
def cloneForMutation (r : Root) : Root :=
  { r with location := none, createdAt := none, previousRootPath := none,
           rollbackFromRootPath := none }

/-- A root that may be changed: a stored root is copied, a private one is used as it is. -/
def mutableCopy (r : Root) : Root := if r.isPersisted then r.cloneForMutation else r

/-- The root with a row set. -/
def withRow (r : Root) (key value : String) : Root :=
  let next := r.mutableCopy
  { next with rows := next.rows.insert key value }

/-- The root without a row. -/
def withoutRow (r : Root) (key : String) : Root :=
  let next := r.mutableCopy
  { next with rows := next.rows.erase key }

/-- The root as stored at a place at a time. -/
def persistedAt (r : Root) (location : Location) (time : Millis) : Root :=
  { r with location := some location, createdAt := some time }

/-- The rows whose key begins with `start`, in key order. -/
def rowsWithStart (r : Root) (start : String) : List (String × String) := r.rows.scan start

end Root

end SnapshotCatalog
