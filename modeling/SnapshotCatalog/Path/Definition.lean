import SnapshotCatalog.Text.Bytes
import SnapshotCatalog.Hash
import SnapshotCatalog.Uuid
/-!
Where definitions lie. The definition of the lakehouse stands at the top. The file of a namespace
or a table is named for it and for a fresh identifier, and lies below directories that spell 20
bits of the hash of that name, which scatters the files.
-/
namespace SnapshotCatalog.DefinitionPath

/-- How paths of lakehouse definitions begin. -/
def lakehouseStart : String := "_lakehouse_def_"

/-- How paths of definitions end. -/
def suffix : String := ".binpb"

/-- The lower 20 bits of the hash of a name, the most significant first. -/
def hashBits (name : String) : List Char :=
  let h := (Hash.hash (Text.bytes name)).toNat
  (List.range 20).map fun i => if h.testBit (19 - i) then '1' else '0'

/-- Three directories of four digits and the eight digits that begin the file name. -/
def directories (name : String) : String :=
  let bits := hashBits name
  String.ofList (bits.take 4 ++ '/' :: (bits.drop 4).take 4 ++ '/' :: (bits.drop 8).take 4 ++
    '/' :: bits.drop 12)

/-- The path of the file that is named by joining the parts. -/
def ofParts (parts : List String) (suffix : String) : String :=
  let name := String.intercalate "-" parts ++ suffix
  directories name ++ "-" ++ name

def ofLakehouse (id : Uuid) : String := lakehouseStart ++ id.text ++ suffix

def ofNamespace (ns : String) (id : Uuid) : String := ofParts [ns, id.text] suffix

def ofTable (ns table : String) (id : Uuid) : String := ofParts [ns, table, id.text] suffix

end SnapshotCatalog.DefinitionPath
