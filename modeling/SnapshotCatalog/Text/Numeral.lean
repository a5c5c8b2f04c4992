/-!
Decimal numerals of bounded integers. A numeral is an optional sign and ASCII digits; it is read
from its first digit on, and reading stops at the first fault, so that a number which is already
too large is reported before a character that is no digit. The main statements say that the
decimal text of a number reads back as that number.
-/
namespace SnapshotCatalog.Numeral

/-- Why a text is no numeral of the wanted kind. -/
inductive Fault where
  | missing
  | badDigit
  | tooLarge
  | tooSmall
  deriving DecidableEq, Repr

def Fault.message : Fault → String
  | .missing => "cannot parse integer from empty string"
  | .badDigit => "invalid digit found in string"
  | .tooLarge => "number too large to fit in target type"
  | .tooSmall => "number too small to fit in target type"

/-- The value of an ASCII digit. -/
def digit? (c : Char) : Option Nat :=
  if '0' ≤ c ∧ c ≤ '9' then some (c.toNat - '0'.toNat) else none

/-- Reads digits after a number already read, which must stay within the limit. -/
def readDigits (limit : Nat) (beyond : Fault) : Nat → List Char → Except Fault Nat
  | read, [] => .ok read
  | read, c :: rest =>
    match digit? c with
    | none => .error .badDigit
    | some d =>
      if limit < read * 10 + d then .error beyond
      else readDigits limit beyond (read * 10 + d) rest

/-- Reads one or more digits. -/
def readMagnitude (limit : Nat) (beyond : Fault) : List Char → Except Fault Nat
  | [] => .error .badDigit
  | digits => readDigits limit beyond 0 digits

/-- The largest unsigned number. -/
def unsignedMax : Nat := 0xffffffffffffffff

/-- The largest signed number. -/
def signedMax : Nat := 0x7fffffffffffffff

/-- Reads an unsigned 64-bit number. It may carry a plus sign. -/
def readUnsigned (s : String) : Except Fault UInt64 :=
  UInt64.ofNat <$>
    match s.toList with
    | [] => .error .missing
    | '+' :: digits => readMagnitude unsignedMax .tooLarge digits
    | digits => readMagnitude unsignedMax .tooLarge digits

/-- Reads a signed 64-bit number. -/
def readSigned (s : String) : Except Fault Int64 :=
  Int64.ofInt <$>
    match s.toList with
    | [] => .error .missing
    | '+' :: digits => Int.ofNat <$> readMagnitude signedMax .tooLarge digits
    | '-' :: digits => (fun n => -Int.ofNat n) <$> readMagnitude (signedMax + 1) .tooSmall digits
    | digits => Int.ofNat <$> readMagnitude signedMax .tooLarge digits

/-- The decimal text of a natural number. -/
def ofNat (n : Nat) : String := String.ofList (Nat.toDigits 10 n)

/-- The decimal text of an integer, with a minus sign if it is negative. -/
def ofInt : Int → String
  | .ofNat n => ofNat n
  | .negSucc n => "-" ++ ofNat (n + 1)

theorem digit?_digitChar {d : Nat} (h : d < 10) : digit? d.digitChar = some d := by
  revert h
  revert d
  decide

theorem readDigits_append (limit : Nat) (beyond : Fault) (read : Nat) (front back : List Char) :
    readDigits limit beyond read (front ++ back) =
      (readDigits limit beyond read front).bind fun middle =>
        readDigits limit beyond middle back := by
  induction front generalizing read with
  | nil => rfl
  | cons c front ih =>
    simp only [List.cons_append, readDigits]
    cases digit? c with
    | none => rfl
    | some d =>
      by_cases h : limit < read * 10 + d
      · simp [h, Except.bind]
      · simp [h, ih]

theorem readDigits_toDigits {limit n : Nat} (beyond : Fault) (h : n ≤ limit) :
    readDigits limit beyond 0 (Nat.toDigits 10 n) = .ok n := by
  induction n using Nat.strongRecOn with
  | ind n ih =>
    rw [Nat.toDigits_eq_if (by decide)]
    by_cases hSmall : n < 10
    · simp [hSmall, readDigits, digit?_digitChar hSmall, Nat.not_lt.mpr h]
    · have hDigit := digit?_digitChar (Nat.mod_lt n (by decide : 10 > 0))
      have hBack : n / 10 * 10 + n % 10 = n := Nat.div_add_mod' n 10
      rw [if_neg hSmall, readDigits_append, ih (n / 10) (by omega) (by omega)]
      simp [Except.bind, readDigits, hDigit, hBack, Nat.not_lt.mpr h]

theorem toDigits_ne_nil (n : Nat) : Nat.toDigits 10 n ≠ [] := by
  rw [Nat.toDigits_eq_if (by decide)]
  split <;> simp

theorem readMagnitude_toDigits {limit n : Nat} (beyond : Fault) (h : n ≤ limit) :
    readMagnitude limit beyond (Nat.toDigits 10 n) = .ok n := by
  unfold readMagnitude
  split
  · next hNil => exact absurd hNil (toDigits_ne_nil n)
  · exact readDigits_toDigits beyond h

theorem isDigit_of_toDigits_eq_cons {n : Nat} {c : Char} {rest : List Char}
    (h : Nat.toDigits 10 n = c :: rest) : c.isDigit = true :=
  Nat.isDigit_of_mem_toDigits (b := 10) (by decide) (by decide) (h ▸ List.mem_cons_self)

/-- The decimal text of an unsigned number reads back as that number. -/
theorem readUnsigned_ofNat (n : UInt64) : readUnsigned (ofNat n.toNat) = .ok n := by
  have hBound : n.toNat ≤ unsignedMax := Nat.le_sub_one_of_lt n.toNat_lt
  have hRead := readMagnitude_toDigits .tooLarge hBound
  simp only [readUnsigned, ofNat, String.toList_ofList]
  split
  · next hNil => exact absurd hNil (toDigits_ne_nil _)
  · next rest hCons => simpa using isDigit_of_toDigits_eq_cons hCons
  · rw [hRead]
    simp [Functor.map, Except.map]

/-- The decimal text of a signed number reads back as that number. -/
theorem readSigned_ofInt (n : Int64) : readSigned (ofInt n.toInt) = .ok n := by
  have hLow := n.le_toInt
  have hHigh := n.toInt_lt
  have hBack := Int64.ofInt_toInt n
  generalize n.toInt = value at hLow hHigh hBack
  cases value with
  | ofNat m =>
    have hBound : m ≤ signedMax := by
      rw [signedMax]
      simp only [Int.ofNat_eq_natCast] at hHigh
      omega
    have hRead := readMagnitude_toDigits .tooLarge hBound
    simp only [readSigned, ofInt, ofNat, String.toList_ofList]
    split
    · next hNil => exact absurd hNil (toDigits_ne_nil _)
    · next hCons => simpa using isDigit_of_toDigits_eq_cons hCons
    · next hCons => simpa using isDigit_of_toDigits_eq_cons hCons
    · rw [hRead]
      simpa [Functor.map, Except.map] using hBack
  | negSucc m =>
    have hBound : m + 1 ≤ signedMax + 1 := by
      rw [signedMax]
      omega
    have hRead := readMagnitude_toDigits .tooSmall hBound
    simp only [readSigned, ofInt, ofNat, String.toList_append, String.toList_ofList]
    have hSign : "-".toList = ['-'] := rfl
    simp only [hSign, List.cons_append, List.nil_append, hRead]
    simpa [Functor.map, Except.map, Int.negSucc_eq] using hBack

end SnapshotCatalog.Numeral
