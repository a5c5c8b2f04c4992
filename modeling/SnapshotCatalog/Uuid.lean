/-!
Identifiers of 128 bits and their canonical text: 32 lower-case hexadecimal digits in groups of
8, 4, 4, 4 and 12.
-/
namespace SnapshotCatalog

structure Uuid where
  bits : BitVec 128
  deriving DecidableEq

namespace Uuid

/-- The hexadecimal digits from the `start`-th on, counted from the most significant one. -/
def digits (id : Uuid) (start count : Nat) : List Char :=
  (List.range count).map fun i => Nat.digitChar ((id.bits.toNat >>> (4 * (31 - (start + i)))) % 16)

/-- The canonical text of 36 characters. -/
def text (id : Uuid) : String :=
  String.ofList (id.digits 0 8 ++ '-' :: id.digits 8 4 ++ '-' :: id.digits 12 4 ++
    '-' :: id.digits 16 4 ++ '-' :: id.digits 20 12)

end Uuid

end SnapshotCatalog
