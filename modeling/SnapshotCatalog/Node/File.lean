import SnapshotCatalog.Text.Quoted
import SnapshotCatalog.Text.Bytes
/-!
Node files: a table of named columns, stored in batches of rows. The catalog reads the first two
columns, its keys and values, and never the bytes of the file, so a file is kept as its columns and
rows. Of its bytes only their number matters, and how they begin, which shows to every other
reader that this is no file of its own.
-/
namespace SnapshotCatalog.Node

inductive ColumnType where
  | text
  | longText
  | binary
  | integer
  | boolean
  deriving DecidableEq, Repr

def ColumnType.name : ColumnType → String
  | .text => "Utf8"
  | .longText => "LargeUtf8"
  | .binary => "Binary"
  | .integer => "Int64"
  | .boolean => "Boolean"

/-- A column of the file. -/
structure Field where
  name : String
  type : ColumnType
  nullable : Bool
  deriving DecidableEq, Repr

def Field.describe (f : Field) : String :=
  "Field \x7b name: " ++ Text.quoted f.name ++ ", data_type: " ++ f.type.name ++
    ", nullable: " ++ toString f.nullable ++
    ", dict_id: 0, dict_is_ordered: false, metadata: \x7b\x7d \x7d"

/-- A row: the texts in its first two columns, where they are not null, and those in further
columns. Of numbers and truth values nothing is ever read, and any text stands for them. -/
structure Row where
  key : Option String
  value : Option String
  further : List (Option String) := []
  deriving DecidableEq, Repr

/-- The cell in a column. -/
def Row.cell (r : Row) (column : Nat) : Option String :=
  (r.key :: r.value :: r.further).getD column none

structure File where
  fields : List Field
  batches : List (List Row)
  deriving DecidableEq, Repr

namespace File

/-- The columns that the catalog writes. -/
def standardFields : List Field := [⟨"key", .text, false⟩, ⟨"value", .text, false⟩]

/-- A file of one batch. -/
def ofRows (rows : List (String × String)) : File :=
  ⟨standardFields, [rows.map fun (key, value) => { key := some key, value := some value }]⟩

/-- Whether the columns have the names and types that the catalog writes. Whether they may hold
nulls is not looked at. -/
def hasStandardFields (f : File) : Bool :=
  f.fields.map (fun field => (field.name, field.type)) ==
    standardFields.map (fun field => (field.name, field.type))

/-- How the bytes of every node file begin: a marker, zeros up to the first block boundary, and
four bytes that no UTF-8 text contains. -/
def opening : List UInt8 :=
  Text.bytes "ARROW1" ++ List.replicate 58 0 ++ List.replicate 4 0xff

end File

end SnapshotCatalog.Node
