import Mathlib.Algebra.Group.Nat.Defs
import SnapshotCatalog.Path.Root
/-!
Root paths spell versions. Every version has one path, every text of that shape is the path of one
version, and reading a path gives back the version it was made from. Texts are taken apart as their
bytes here, because the shape of a path is a matter of bytes.
-/
namespace SnapshotCatalog

namespace Text

theorem bytes_ofList (cs : List Char) :
    bytes (String.ofList cs) = cs.flatMap String.utf8EncodeChar := by
  simp [bytes, List.utf8Encode]

end Text

namespace RootPath

/-- The byte of a binary digit. -/
def digitByte (bit : Bool) : UInt8 := if bit then 0x31 else 0x30

/-- The first `count` bits of a number as bytes, the least significant first. -/
def digitBytesOf (count n : Nat) : List UInt8 :=
  (List.range count).map fun i => digitByte (n.testBit i)

theorem digitBytesOf_succ (count n : Nat) :
    digitBytesOf (count + 1) n = digitByte (n.testBit 0) :: digitBytesOf count (n / 2) := by
  simp [digitBytesOf, List.range_succ_eq_map, Nat.testBit_succ, Function.comp_def]

theorem valueOf_digitBytesOf (count n : Nat) : valueOf (digitBytesOf count n) = n % 2 ^ count := by
  induction count generalizing n with
  | zero => simp [digitBytesOf, valueOf, Nat.mod_one]
  | succ count ih =>
      have hRest : valueOf (digitBytesOf count (n / 2)) = n / 2 % 2 ^ count := ih (n / 2)
      have hBit : (if digitByte (n.testBit 0) = 0x31 then 1 else 0) = n % 2 := by
        rw [Nat.testBit_zero]
        rcases Nat.mod_two_eq_zero_or_one n with h | h
        · simp [h, digitByte]
        · simp [h, digitByte]
      have hSplit : n % (2 * 2 ^ count) = n % 2 + 2 * (n / 2 % 2 ^ count) := Nat.mod_mul
      rw [digitBytesOf_succ, Nat.pow_succ, Nat.mul_comm, hSplit, ← hRest, ← hBit]
      rfl

/-- Binary digits are the digits of the number they spell. -/
theorem digitBytesOf_valueOf {digits : List UInt8} (h : ∀ b ∈ digits, b = 0x30 ∨ b = 0x31) :
    digitBytesOf digits.length (valueOf digits) = digits := by
  induction digits with
  | nil => rfl
  | cons b rest ih =>
      have hValue : valueOf (b :: rest) = (if b = 0x31 then 1 else 0) + 2 * valueOf rest := rfl
      have hRest := ih fun c hc => h c (List.mem_cons_of_mem b hc)
      have hDiv : valueOf (b :: rest) / 2 = valueOf rest := by
        rw [hValue]
        split <;> omega
      have hBit : digitByte ((valueOf (b :: rest)).testBit 0) = b := by
        rw [hValue, Nat.testBit_zero]
        rcases h b List.mem_cons_self with rfl | rfl
        · simp [digitByte]
        · simp [digitByte, Nat.add_mod]
      rw [List.length_cons, digitBytesOf_succ, hDiv, hRest, hBit]

theorem valueOf_lt (digits : List UInt8) : valueOf digits < 2 ^ digits.length := by
  induction digits with
  | nil => simp [valueOf]
  | cons b rest ih =>
      have hValue : valueOf (b :: rest) = (if b = 0x31 then 1 else 0) + 2 * valueOf rest := rfl
      rw [hValue, List.length_cons, Nat.pow_succ]
      split <;> omega

/-- The bytes of a root path: the marker, the digits and the suffix. -/
theorem bytes_ofVersion (v : Version) :
    Text.bytes (ofVersion v) = 0x5f :: digitBytesOf 64 v.toNat ++ [0x2e, 0x69, 0x70, 0x63] := by
  have hSuffix : suffix.toList.flatMap String.utf8EncodeChar = [0x2e, 0x69, 0x70, 0x63] := by decide
  have hMark : String.utf8EncodeChar '_' = [0x5f] := by decide
  have hDigit : ∀ bit, String.utf8EncodeChar (digit bit) = [digitByte bit] := by decide
  have hDigits : (digits v).flatMap String.utf8EncodeChar = digitBytesOf 64 v.toNat := by
    simp only [digits, digitBytesOf, List.flatMap_map, hDigit, ← List.map_eq_flatMap]
  rw [ofVersion, Text.bytes_ofList, List.cons_append, List.flatMap_cons, List.flatMap_append,
    hSuffix, hMark, hDigits]
  rfl

@[simp] theorem length_digitBytesOf (count n : Nat) : (digitBytesOf count n).length = count := by
  simp [digitBytesOf]

theorem mem_digitBytesOf {count n : Nat} {b : UInt8} (h : b ∈ digitBytesOf count n) :
    b = 0x30 ∨ b = 0x31 := by
  obtain ⟨i, -, rfl⟩ := List.mem_map.mp h
  cases n.testBit i
  · exact .inl rfl
  · exact .inr rfl

/-- The shape of a root path, as bytes. -/
theorem isRootPath_iff (path : String) :
    isRootPath path = true ↔ ∃ digits : List UInt8, digits.length = 64 ∧
      (∀ b ∈ digits, b = 0x30 ∨ b = 0x31) ∧
      Text.bytes path = 0x5f :: digits ++ [0x2e, 0x69, 0x70, 0x63] := by
  have hMark : Text.bytes "_" = [0x5f] := by decide
  have hSuffix : Text.bytes suffix = [0x2e, 0x69, 0x70, 0x63] := by decide
  constructor
  · intro h
    simp only [isRootPath, Bool.and_eq_true, beq_iff_eq, List.all_eq_true, Bool.or_eq_true] at h
    obtain ⟨⟨⟨hSize, hStart⟩, hEnd⟩, hDigits⟩ := h
    obtain ⟨rest, hRest⟩ := Text.startsWith_iff.mp hStart
    obtain ⟨front, hFront⟩ := List.isSuffixOf_iff_suffix.mp hEnd
    rw [hMark] at hRest
    rw [hSuffix] at hFront
    rw [← hRest, size] at hSize
    have hLength : rest.length = 68 := by simpa using hSize
    have hTail : rest = rest.take 64 ++ [0x2e, 0x69, 0x70, 0x63] := by
      have hDrop := congrArg (List.drop 65) (hFront.trans hRest.symm)
      have hFrontLength : front.length = 65 := by
        have := congrArg List.length (hFront.trans hRest.symm)
        simp [hLength] at this
        omega
      have hLast : rest.drop 64 = [0x2e, 0x69, 0x70, 0x63] := by
        simpa [List.drop_append_of_le_length, hFrontLength] using hDrop.symm
      rw [← hLast, List.take_append_drop]
    refine ⟨rest.take 64, by simp [hLength], ?_, ?_⟩
    · intro b hb
      apply hDigits b
      rw [digitBytes, ← hRest]
      simpa using hb
    · rw [← hRest]
      exact congrArg (List.cons 0x5f) hTail
  · rintro ⟨digits, hLength, hDigits, hBytes⟩
    have hInner : digitBytes path = digits := by
      rw [digitBytes, hBytes]
      simp [hLength]
    simp only [isRootPath, Bool.and_eq_true, beq_iff_eq, List.all_eq_true, Bool.or_eq_true]
    refine ⟨⟨⟨?_, ?_⟩, ?_⟩, ?_⟩
    · simp [hBytes, hLength, size]
    · exact Text.startsWith_iff.mpr ⟨digits ++ [0x2e, 0x69, 0x70, 0x63], by rw [hMark, hBytes]; rfl⟩
    · exact List.isSuffixOf_iff_suffix.mpr ⟨0x5f :: digits, by rw [hSuffix, hBytes]⟩
    · rw [hInner]
      exact hDigits

/-- Reading the path of a version gives back the version. -/
@[simp] theorem version?_ofVersion (v : Version) : version? (ofVersion v) = some v := by
  have hShape : isRootPath (ofVersion v) = true :=
    (isRootPath_iff _).mpr ⟨digitBytesOf 64 v.toNat, by simp, fun _ => mem_digitBytesOf,
      bytes_ofVersion v⟩
  have hDigits : digitBytes (ofVersion v) = digitBytesOf 64 v.toNat := by
    rw [digitBytes, bytes_ofVersion]
    simp
  have hSmall : v.toNat % 2 ^ 64 = v.toNat := Nat.mod_eq_of_lt v.toNat_lt
  rw [version?, if_pos hShape, hDigits, valueOf_digitBytesOf, hSmall, UInt64.ofNat_toNat]

/-- Every text with the shape of a root path is the path of the version that is read from it. -/
theorem eq_ofVersion_of_version? {path : String} {v : Version} (h : version? path = some v) :
    path = ofVersion v := by
  rw [version?] at h
  split at h
  · next hShape =>
    obtain ⟨digits, hLength, hDigits, hBytes⟩ := (isRootPath_iff path).mp hShape
    have hInner : digitBytes path = digits := by
      rw [digitBytes, hBytes]
      simp [hLength]
    have hValue : v.toNat = valueOf digits := by
      have hLess : valueOf digits < 2 ^ 64 := hLength ▸ valueOf_lt digits
      rw [← Option.some.inj h, hInner, UInt64.toNat_ofNat']
      exact Nat.mod_eq_of_lt hLess
    apply Text.bytes_inj.mp
    rw [bytes_ofVersion, hValue, hBytes, ← hLength, digitBytesOf_valueOf hDigits]
  · cases h

theorem ofVersion_injective : Function.Injective ofVersion := by
  intro v w h
  have hRead := congrArg version? h
  simpa using hRead

theorem isRootPath_ofVersion (v : Version) : isRootPath (ofVersion v) = true := by
  have h := version?_ofVersion v
  rw [version?] at h
  split at h
  · assumption
  · cases h

theorem isRootPath_iff_exists (path : String) :
    isRootPath path = true ↔ ∃ v, path = ofVersion v := by
  constructor
  · intro h
    exact ⟨_, eq_ofVersion_of_version? (if_pos h)⟩
  · rintro ⟨v, rfl⟩
    exact isRootPath_ofVersion v

end RootPath

end SnapshotCatalog
