/-!
Identifiers of transactions: 128 bits, of which the upper 48 hold the time of creation in
milliseconds, so that ids sort by time. The text of an id has 26 digits to base 32, the most
significant first. An id is read in either case; the two bits that 26 digits have beyond 128 are
dropped.
-/
namespace SnapshotCatalog

structure TransactionId where
  bits : BitVec 128
  deriving DecidableEq

namespace TransactionId

/-- Why a text is no id. -/
inductive Fault where
  | badLength
  | badCharacter
  deriving DecidableEq, Repr

def Fault.message : Fault → String
  | .badLength => "invalid length"
  | .badCharacter => "invalid character"

/-- The digits to base 32. The letters I, L, O and U are left out. -/
def alphabet : List Char := "0123456789ABCDEFGHJKMNPQRSTVWXYZ".toList

/-- The value of a digit in either case. -/
def digit? (c : Char) : Option Nat := alphabet.idxOf? c.toUpper

/-- Reads 26 digits. The length is counted in bytes and checked before the digits. -/
def read (s : String) : Except Fault TransactionId :=
  if s.utf8ByteSize ≠ 26 then .error .badLength
  else
    match s.toList.mapM digit? with
    | none => .error .badCharacter
    | some digits => .ok ⟨BitVec.ofNat 128 (digits.foldl (fun value d => value * 32 + d) 0)⟩

/-- The canonical text, in upper case. -/
def text (id : TransactionId) : String :=
  String.ofList <| (List.range 26).map fun i =>
    alphabet.getD ((id.bits.toNat >>> (5 * (25 - i))) % 32) '0'

/-- The time of creation, in milliseconds. -/
def createdAtMillis (id : TransactionId) : Nat := id.bits.toNat >>> 80

/-- The lower 80 bits. -/
def entropy (id : TransactionId) : Nat := (id.bits.setWidth 80).toNat

instance : LE TransactionId := ⟨fun a b => a.bits ≤ b.bits⟩

instance : DecidableLE TransactionId := fun a b => inferInstanceAs (Decidable (a.bits ≤ b.bits))

/-- Ids in increasing order. -/
def sort (ids : List TransactionId) : List TransactionId := ids.mergeSort fun a b => a ≤ b

end TransactionId

end SnapshotCatalog
