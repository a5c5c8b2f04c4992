import SnapshotCatalog.TextMap
/-!
What the catalog records about a lakehouse, a namespace and a table. A definition is never
changed: whoever wants another one makes it at a new place.
-/
namespace SnapshotCatalog

/-- Settings of a whole lakehouse, fixed at its creation. The limits count bytes. -/
structure LakehouseDef where
  namespaceNameMax : UInt32
  tableNameMax : UInt32
  fileNameMax : UInt32
  nodeFileMax : UInt64
  properties : TextMap String
  deriving DecidableEq

/-- Free-form properties of a namespace. -/
structure NamespaceDef where
  properties : TextMap String
  deriving DecidableEq

structure Column where
  name : String
  dataType : String
  nullable : Bool
  deriving DecidableEq

/-- Columns in order, free-form properties, and where the data of the table is, if it is kept
outside the lakehouse. -/
structure TableDef where
  columns : List Column
  properties : TextMap String
  location : String
  deriving DecidableEq

namespace LakehouseDef

/-- The limits of a lakehouse that asks for none. -/
def standard : LakehouseDef := ⟨100, 100, 200, 1048576, .empty⟩

/-- A definition with no field set. -/
def blank : LakehouseDef := ⟨0, 0, 0, 0, .empty⟩

/-- The limits by name, in the order in which they are checked. -/
def limits (d : LakehouseDef) : List (String × Nat) :=
  [("namespace_name_max_size_bytes", d.namespaceNameMax.toNat),
    ("table_name_max_size_bytes", d.tableNameMax.toNat),
    ("file_name_max_size_bytes", d.fileNameMax.toNat),
    ("node_file_max_size_bytes", d.nodeFileMax.toNat)]

/-- The name of the first limit that is zero. -/
def zeroLimit? (d : LakehouseDef) : Option String :=
  (d.limits.find? (·.2 == 0)).map (·.1)

end LakehouseDef

def NamespaceDef.blank : NamespaceDef := ⟨.empty⟩

def Column.blank : Column := ⟨"", "", false⟩

def TableDef.blank : TableDef := ⟨[], .empty, ""⟩

end SnapshotCatalog
