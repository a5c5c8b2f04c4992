import SnapshotCatalog.Text.Bytes
/-!
Where the root node of each version lies. The path spells the 64 bits of the version, the least
significant first, so that the paths of neighbouring versions have no long common beginning.
-/
namespace SnapshotCatalog

/-- Versions count the committed snapshots from zero on. -/
abbrev Version := UInt64

namespace RootPath

/-- How root paths end. -/
def suffix : String := ".ipc"

/-- The size of a root path in bytes. -/
def size : Nat := 69

def digit (bit : Bool) : Char := if bit then '1' else '0'

/-- The bits of a version, the least significant first. -/
def digits (v : Version) : List Char := (List.range 64).map fun i => digit (v.toNat.testBit i)

/-- The path of a version. -/
def ofVersion (v : Version) : String := String.ofList ('_' :: digits v ++ suffix.toList)

/-- The bytes between the marker and the suffix. -/
def digitBytes (path : String) : List UInt8 := ((Text.bytes path).drop 1).take 64

/-- Whether a path has the shape of a root path: a marker, 64 binary digits and the suffix. -/
def isRootPath (path : String) : Bool :=
  (Text.bytes path).length == size && Text.startsWith path "_" && Text.endsWith path suffix &&
    (digitBytes path).all fun b => b == 0x30 || b == 0x31

/-- The number with these binary digits, the least significant first. -/
def valueOf (digits : List UInt8) : Nat :=
  digits.foldr (fun b rest => (if b = 0x31 then 1 else 0) + 2 * rest) 0

/-- The version whose path this is. -/
def version? (path : String) : Option Version :=
  if isRootPath path then some (UInt64.ofNat (valueOf (digitBytes path))) else none

end RootPath

end SnapshotCatalog
