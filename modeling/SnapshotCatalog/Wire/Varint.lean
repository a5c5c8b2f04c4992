/-!
Numbers as base-128 digits, the least significant first. Every digit but the last carries a high
bit. A number has at most ten digits, and the tenth holds a single bit. The main statement says
that reading takes back exactly what writing put in front.
-/
namespace SnapshotCatalog.Wire

/-- The digits of a number. -/
def varint (n : Nat) : List UInt8 :=
  if n < 128 then [UInt8.ofNat n] else UInt8.ofNat (n % 128 + 128) :: varint (n / 128)

/-- Reads at most `left` digits. The last digit that may be read is 0 or 1. -/
def readDigits? : (left : Nat) → List UInt8 → Option (Nat × List UInt8)
  | 0, _ => none
  | _ + 1, [] => none
  | left + 1, digit :: rest =>
    if digit < 128 then
      if left = 0 ∧ 1 < digit then none else some (digit.toNat, rest)
    else
      (readDigits? left rest).map fun (high, rest) => (digit.toNat - 128 + 128 * high, rest)

/-- Reads a number below 2^64 and gives it with the bytes after it. -/
def readVarint? (input : List UInt8) : Option (Nat × List UInt8) := readDigits? 10 input

/-- Whether a number fits into `left` digits and a last digit that is 0 or 1. -/
def Fits : (left : Nat) → Nat → Prop
  | 0, n => n < 2
  | left + 1, n => Fits left (n / 128)

theorem fits_of_lt {n : Nat} (h : n < UInt64.size) : Fits 9 n := by
  simp only [Fits, UInt64.size] at h ⊢
  omega

theorem readDigits?_varint {left n : Nat} (h : Fits left n) (rest : List UInt8) :
    readDigits? (left + 1) (varint n ++ rest) = some (n, rest) := by
  induction left generalizing n with
  | zero =>
    have hSmall : n < 2 := h
    rw [varint, if_pos (by omega)]
    have hDigit : (UInt8.ofNat n).toNat = n := by
      rw [UInt8.toNat_ofNat']
      omega
    have hLow : UInt8.ofNat n < 128 := by
      rw [UInt8.lt_iff_toNat_lt, hDigit, show (128 : UInt8).toNat = 128 from rfl]
      omega
    have hOne : ¬ (1 : UInt8) < UInt8.ofNat n := fun hOne => by
      have hLess := UInt8.lt_iff_toNat_lt.mp hOne
      rw [hDigit, show (1 : UInt8).toNat = 1 from rfl] at hLess
      omega
    simp [readDigits?, hLow, hOne, hDigit]
  | succ left ih =>
    rw [varint]
    by_cases hSmall : n < 128
    · have hDigit : (UInt8.ofNat n).toNat = n := by
        rw [UInt8.toNat_ofNat']
        omega
      have hLow : UInt8.ofNat n < 128 := by
        rw [UInt8.lt_iff_toNat_lt, hDigit, show (128 : UInt8).toNat = 128 from rfl]
        exact hSmall
      rw [if_pos hSmall, List.singleton_append, readDigits?]
      simp [hLow, hDigit]
    · have hDigit : (UInt8.ofNat (n % 128 + 128)).toNat = n % 128 + 128 := by
        rw [UInt8.toNat_ofNat']
        omega
      have hHigh : ¬ UInt8.ofNat (n % 128 + 128) < 128 := fun hLow => by
        have hLess := UInt8.lt_iff_toNat_lt.mp hLow
        rw [hDigit, show (128 : UInt8).toNat = 128 from rfl] at hLess
        omega
      rw [if_neg hSmall, List.cons_append, readDigits?, if_neg hHigh, ih h]
      simp only [Option.map_some, hDigit, Option.some.injEq, Prod.mk.injEq, and_true]
      omega

/-- Reading takes back what writing put in front. -/
theorem readVarint?_varint {n : Nat} (h : n < UInt64.size) (rest : List UInt8) :
    readVarint? (varint n ++ rest) = some (n, rest) :=
  readDigits?_varint (fits_of_lt h) rest

end SnapshotCatalog.Wire
