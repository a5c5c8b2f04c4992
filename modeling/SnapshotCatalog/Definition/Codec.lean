import SnapshotCatalog.Definition.Basic
import SnapshotCatalog.Wire.Field
/-!
The bytes of a definition. Fields are written in the order of their tags and a field that holds
zero, false or the empty text is left out; properties are written in key order, one entry message
each. A reader takes fields in any order: the last number or text counts, columns accumulate, and
a later entry replaces an earlier one with its key.
-/
namespace SnapshotCatalog

open Wire

/-- Values that are stored as messages. -/
class Definition (α : Type) where
  encode : α → List UInt8
  decode : List UInt8 → Except DecodeError α

namespace Definition

/-- The properties of a definition, one entry message each. -/
def propertyFields (tag : Nat) (properties : TextMap String) : List UInt8 :=
  properties.entries.flatMap fun (name, value) =>
    nestedField tag (textField 1 name ++ textField 2 value)

/-- Merges a field into the name and the value of one property. -/
def mergeProperty (levels : Nat) (key : Key) (entry : String × String) :
    Reader (String × String) :=
  match key.tag with
  | 1 => return (← readText key.wireType, entry.2)
  | 2 => return (entry.1, ← readText key.wireType)
  | _ => do
    skipField levels key
    return entry

/-- Merges one property. Its wire type is not looked at. -/
def mergeProperties (levels : Nat) (properties : TextMap String) : Reader (TextMap String) := do
  let (name, value) ← mergeNested levels mergeProperty ("", "")
  return properties.insert name value

end Definition

namespace LakehouseDef

def encode (d : LakehouseDef) : List UInt8 :=
  numberField 1 d.namespaceNameMax.toNat ++ numberField 2 d.tableNameMax.toNat ++
    numberField 3 d.fileNameMax.toNat ++ numberField 4 d.nodeFileMax.toNat ++
    Definition.propertyFields 5 d.properties

def merge (levels : Nat) (key : Key) (d : LakehouseDef) : Reader LakehouseDef :=
  match key.tag with
  | 1 => within "LakehouseDef" "namespace_name_max_size_bytes" do
    return { d with namespaceNameMax := UInt32.ofNat (← readNumber key.wireType) }
  | 2 => within "LakehouseDef" "table_name_max_size_bytes" do
    return { d with tableNameMax := UInt32.ofNat (← readNumber key.wireType) }
  | 3 => within "LakehouseDef" "file_name_max_size_bytes" do
    return { d with fileNameMax := UInt32.ofNat (← readNumber key.wireType) }
  | 4 => within "LakehouseDef" "node_file_max_size_bytes" do
    return { d with nodeFileMax := UInt64.ofNat (← readNumber key.wireType) }
  | 5 => within "LakehouseDef" "properties" do
    return { d with properties := ← Definition.mergeProperties levels d.properties }
  | _ => do
    skipField levels key
    return d

instance : Definition LakehouseDef := ⟨encode, mergeAll (merge levels) blank⟩

end LakehouseDef

namespace NamespaceDef

def encode (d : NamespaceDef) : List UInt8 := Definition.propertyFields 1 d.properties

def merge (levels : Nat) (key : Key) (d : NamespaceDef) : Reader NamespaceDef :=
  match key.tag with
  | 1 => within "NamespaceDef" "properties" do
    return ⟨← Definition.mergeProperties levels d.properties⟩
  | _ => do
    skipField levels key
    return d

instance : Definition NamespaceDef := ⟨encode, mergeAll (merge levels) blank⟩

end NamespaceDef

namespace Column

def encode (c : Column) : List UInt8 :=
  textField 1 c.name ++ textField 2 c.dataType ++ numberField 3 c.nullable.toNat

def merge (levels : Nat) (key : Key) (c : Column) : Reader Column :=
  match key.tag with
  | 1 => within "Column" "name" do return { c with name := ← readText key.wireType }
  | 2 => within "Column" "data_type" do return { c with dataType := ← readText key.wireType }
  | 3 => within "Column" "nullable" do
    return { c with nullable := (← readNumber key.wireType) != 0 }
  | _ => do
    skipField levels key
    return c

instance : Definition Column := ⟨encode, mergeAll (merge levels) blank⟩

end Column

namespace TableDef

def encode (d : TableDef) : List UInt8 :=
  d.columns.flatMap (fun c => nestedField 1 c.encode) ++
    Definition.propertyFields 2 d.properties ++ textField 3 d.location

def merge (levels : Nat) (key : Key) (d : TableDef) : Reader TableDef :=
  match key.tag with
  | 1 => within "TableDef" "columns" do
    expect .lengthDelimited key.wireType
    return { d with columns := d.columns ++ [← mergeNested levels Column.merge Column.blank] }
  | 2 => within "TableDef" "properties" do
    return { d with properties := ← Definition.mergeProperties levels d.properties }
  | 3 => within "TableDef" "location" do return { d with location := ← readText key.wireType }
  | _ => do
    skipField levels key
    return d

instance : Definition TableDef := ⟨encode, mergeAll (merge levels) blank⟩

end TableDef

end SnapshotCatalog
