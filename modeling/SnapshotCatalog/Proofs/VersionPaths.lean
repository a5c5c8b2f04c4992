import Mathlib.Data.List.Basic
import Mathlib.Logic.ExistsUnique
import SnapshotCatalog.Chain.Link
import SnapshotCatalog.Proofs.Names
import SnapshotCatalog.Proofs.Paths
/-!
Versions and root paths tell each other. A root path is recognised by its bytes, and its version is read
from the characters between two byte offsets. No such cut is ever made inside a character or past the end
of a path, and 64 binary digits spell no more than a version, so every text is either refused or read.
-/
namespace SnapshotCatalog

/-! ### Cuts at byte offsets -/

namespace Text

/-- The bytes from one offset up to another. There are none if the text ends before that. -/
def byteRange? (start stop : Nat) (s : String) : Option (List UInt8) :=
  if stop ≤ (bytes s).length then some (((bytes s).drop start).take (stop - start)) else none

/-- The characters from one byte offset up to another. There are none if an offset lies past the end or
inside a character. -/
def between? (start stop : Nat) (s : String) : Option (List Char) :=
  (cutAtByte? start s.toList).bind fun cut => (cutAtByte? (stop - start) cut.2).map (·.1)

theorem between?_append (front middle back : String) :
    between? front.utf8ByteSize (front.utf8ByteSize + middle.utf8ByteSize) (front ++ (middle ++ back)) =
      some middle.toList := by
  rw [between?, String.toList_append, cutAtByte?_append, Option.bind_some, Nat.add_sub_cancel_left,
    String.toList_append, cutAtByte?_append]
  rfl

end Text

/-! ### Binary numerals -/

namespace Numeral

/-- The value of a binary digit. -/
def bit? (c : Char) : Option Nat :=
  if c = '0' then some 0 else if c = '1' then some 1 else none

/-- Reads binary digits after a number already read, which must stay within 64 bits. -/
def readBits : Nat → List Char → Except Fault Nat
  | read, [] => .ok read
  | read, c :: rest =>
    match bit? c with
    | none => .error .badDigit
    | some bit =>
      if unsignedMax < read * 2 + bit then .error .tooLarge else readBits (read * 2 + bit) rest

/-- Reads an unsigned 64-bit number from its binary digits, the most significant first. It may carry a plus
sign. -/
def readBinary : List Char → Except Fault UInt64
  | [] => .error .missing
  | ['+'] => .error .badDigit
  | '+' :: digits => (readBits 0 digits).map UInt64.ofNat
  | digits => (readBits 0 digits).map UInt64.ofNat

theorem readBits_append (read : Nat) (front back : List Char) :
    readBits read (front ++ back) = (readBits read front).bind fun middle => readBits middle back := by
  induction front generalizing read with
  | nil => rfl
  | cons c front ih =>
      simp only [List.cons_append, readBits]
      cases bit? c with
      | none => rfl
      | some bit =>
          by_cases h : unsignedMax < read * 2 + bit
          · simp [h, Except.bind]
          · simp [h, ih]

theorem bit?_digit (bit : Bool) : bit? (RootPath.digit bit) = some bit.toNat := by
  cases bit <;> rfl

/-- Up to 64 binary digits are read as the number that they spell, when the least significant stands last. -/
theorem readBits_reverse {bits : List Bool} (h : bits.length ≤ 64) :
    readBits 0 (bits.map RootPath.digit).reverse = .ok (RootPath.valueOf (bits.map RootPath.digitByte)) := by
  induction bits with
  | nil => rfl
  | cons bit rest ih =>
      have hValue : RootPath.valueOf ((bit :: rest).map RootPath.digitByte) =
          RootPath.valueOf (rest.map RootPath.digitByte) * 2 + bit.toNat := by
        show (if RootPath.digitByte bit = 0x31 then 1 else 0) +
          2 * RootPath.valueOf (rest.map RootPath.digitByte) = _
        cases bit <;> simp [RootPath.digitByte] <;> omega
      have hBound : RootPath.valueOf ((bit :: rest).map RootPath.digitByte) < 2 ^ 64 := by
        refine Nat.lt_of_lt_of_le (RootPath.valueOf_lt _) (Nat.pow_le_pow_right (by decide) ?_)
        rwa [List.length_map]
      have hFits : ¬ unsignedMax < RootPath.valueOf (rest.map RootPath.digitByte) * 2 + bit.toNat := by
        rw [← hValue, unsignedMax]
        omega
      rw [List.map_cons, List.reverse_cons, readBits_append, ih (Nat.le_of_succ_le h), hValue]
      show readBits (RootPath.valueOf (rest.map RootPath.digitByte)) [RootPath.digit bit] = _
      rw [readBits, bit?_digit]
      dsimp only
      rw [if_neg hFits]
      rfl

end Numeral

/-! ### Root paths, character by character -/

namespace RootPath

/-- The shape of a root path: the marker, 64 binary digits and the suffix. -/
def Spelled (path : String) : Prop :=
  ∃ digits : List Char, digits.length = 64 ∧ (∀ c ∈ digits, c = '0' ∨ c = '1') ∧
    path.toList = '_' :: digits ++ ['.', 'i', 'p', 'c']

theorem length_digits (v : Version) : (digits v).length = 64 := by
  simp [digits]

theorem mem_digits {v : Version} {c : Char} (h : c ∈ digits v) : c = '0' ∨ c = '1' := by
  obtain ⟨i, -, rfl⟩ := List.mem_map.mp h
  cases v.toNat.testBit i
  · exact .inl rfl
  · exact .inr rfl

theorem spelled_ofVersion (v : Version) : Spelled (ofVersion v) :=
  ⟨digits v, length_digits v, fun _ => mem_digits, toList_ofVersion v⟩

/-- The byte of a character that is a binary digit. -/
def byteOfDigit (c : Char) : UInt8 := digitByte (c == '1')

theorem utf8EncodeChar_of_digit {c : Char} (h : c = '0' ∨ c = '1') :
    String.utf8EncodeChar c = [byteOfDigit c] := by
  rcases h with rfl | rfl
  · decide
  · decide

/-- Binary digits take one byte each. -/
theorem flatMap_utf8EncodeChar_of_digits {digits : List Char} (h : ∀ c ∈ digits, c = '0' ∨ c = '1') :
    digits.flatMap String.utf8EncodeChar = digits.map byteOfDigit := by
  rw [List.map_eq_flatMap]
  exact List.flatMap_congr fun c hc => utf8EncodeChar_of_digit (h c hc)

/-- The bytes tell the characters: a root path is spelled like one, and nothing else is. -/
theorem isRootPath_iff_spelled (path : String) : isRootPath path = true ↔ Spelled path := by
  constructor
  · intro h
    obtain ⟨v, rfl⟩ := (isRootPath_iff_exists path).mp h
    exact spelled_ofVersion v
  · rintro ⟨digits, hLength, hDigits, hSpelled⟩
    refine (isRootPath_iff path).mpr
      ⟨digits.map byteOfDigit, (List.length_map _).trans hLength, fun b hb => ?_, ?_⟩
    · obtain ⟨c, hc, rfl⟩ := List.mem_map.mp hb
      rcases hDigits c hc with rfl | rfl
      · exact .inl rfl
      · exact .inr rfl
    · have hMark : String.utf8EncodeChar '_' = [0x5f] := by decide
      have hSuffix : ['.', 'i', 'p', 'c'].flatMap String.utf8EncodeChar = [0x2e, 0x69, 0x70, 0x63] := by
        decide
      rw [← @String.ofList_toList path, hSpelled, Text.bytes_ofList, List.cons_append,
        List.flatMap_cons, List.flatMap_append, hMark, hSuffix, flatMap_utf8EncodeChar_of_digits hDigits]
      rfl

/-- Whether a path has the shape of a root path, byte by byte. There is no answer if bytes are looked at
that the path does not have. -/
def hasShape? (path : String) : Option Bool :=
  if (Text.bytes path).length == size && Text.startsWith path "_" && Text.endsWith path suffix then
    (Text.byteRange? 1 65 path).map fun digits => digits.all fun b => b == 0x30 || b == 0x31
  else some false

/-- The version of a root path, read by cutting the path and turning its digits round. There is no outcome
if a cut falls past the end of the path or inside a character. -/
def readByCuts? (path : String) : Option (Except Error Version) := do
  if ← hasShape? path then
    let digits ← Text.between? 1 65 path
    match Numeral.readBinary digits.reverse with
    | .ok v => return .ok v
    | .error fault =>
      return .error (.invalidArgument (.described
        ("invalid root path " ++ Text.quoted path ++ ": " ++ fault.message)))
  else return .error (.invalidArgument (.rootPath path))

theorem hasShape?_eq (path : String) : hasShape? path = some (isRootPath path) := by
  rw [hasShape?, isRootPath]
  split
  · next hOuter =>
    rw [hOuter, Bool.true_and]
    simp only [Bool.and_eq_true, beq_iff_eq] at hOuter
    have hLong : 65 ≤ (Text.bytes path).length := by
      rw [hOuter.1.1, size]
      decide
    rw [Text.byteRange?, if_pos hLong]
    rfl
  · next hOuter => rw [Bool.eq_false_iff.mpr hOuter, Bool.false_and]

/-- The bits of a version, the least significant first. -/
def bits (v : Version) : List Bool := (List.range 64).map v.toNat.testBit

theorem digits_eq (v : Version) : digits v = (bits v).map digit := by
  rw [bits, List.map_map]
  rfl

theorem valueOf_bits (v : Version) : valueOf ((bits v).map digitByte) = v.toNat := by
  have hBytes : (bits v).map digitByte = digitBytesOf 64 v.toNat := by
    rw [bits, List.map_map]
    rfl
  rw [hBytes, valueOf_digitBytesOf]
  exact Nat.mod_eq_of_lt v.toNat_lt

/-- The digits of a version are read as the version, when the most significant stands first. -/
theorem readBinary_digits (v : Version) : Numeral.readBinary (digits v).reverse = .ok v := by
  have hLength : (bits v).length ≤ 64 := by simp [bits]
  have hRead := Numeral.readBits_reverse hLength
  rw [← digits_eq, valueOf_bits] at hRead
  have hPlus : '+' ∉ (digits v).reverse := by
    rw [List.mem_reverse]
    exact fun hMem => absurd (mem_digits hMem) (by decide)
  have hSome : (digits v).reverse.length = 64 := by rw [List.length_reverse, length_digits]
  -- There are digits, and none of them is a sign.
  unfold Numeral.readBinary
  split
  · next hNil =>
    rw [hNil] at hSome
    cases hSome
  · next hSign => exact absurd (hSign ▸ List.mem_cons_self) hPlus
  · next hSign => exact absurd (hSign ▸ List.mem_cons_self) hPlus
  · rw [hRead]
    exact congrArg Except.ok UInt64.ofNat_toNat

theorem between?_ofVersion (v : Version) : Text.between? 1 65 (ofVersion v) = some (digits v) := by
  have hParts : ofVersion v = "_" ++ (String.ofList (digits v) ++ suffix) := by
    have hMark : "_".toList = ['_'] := by decide
    rw [← String.toList_inj, ofVersion]
    simp only [String.toList_append, String.toList_ofList, hMark, List.cons_append, List.nil_append]
  have hSize : (String.ofList (digits v)).utf8ByteSize = 64 := by
    rw [Text.utf8ByteSize_eq, String.toList_ofList,
      flatMap_utf8EncodeChar_of_digits fun _ => mem_digits, List.length_map, length_digits]
  have hCut := Text.between?_append "_" (String.ofList (digits v)) suffix
  rw [← hParts, hSize, String.toList_ofList] at hCut
  exact hCut

/-- Reading by cuts always has an outcome, and the digits of a root path are always a version. -/
theorem readByCuts?_eq (path : String) : readByCuts? path = some (Chain.versionAt path) := by
  rw [readByCuts?, hasShape?_eq]
  cases hShape : isRootPath path with
  | false =>
      rw [Chain.versionAt, version?, hShape]
      rfl
  | true =>
      obtain ⟨v, rfl⟩ := (isRootPath_iff_exists path).mp hShape
      rw [Chain.versionAt, version?_ofVersion]
      show (Text.between? 1 65 (ofVersion v)).bind _ = _
      rw [between?_ofVersion, Option.bind_some, readBinary_digits]
      rfl

theorem versionAt_ofVersion (v : Version) : Chain.versionAt (ofVersion v) = .ok v := by
  rw [Chain.versionAt, version?_ofVersion]

theorem ofVersion_of_versionAt {path : String} {v : Version} (h : Chain.versionAt path = .ok v) :
    ofVersion v = path := by
  rw [Chain.versionAt] at h
  split at h
  · next hRead =>
    cases h
    exact (eq_ofVersion_of_version? hRead).symm
  · cases h

theorem versionAt_of_not_spelled {path : String} (h : ¬ Spelled path) :
    Chain.versionAt path = .error (.invalidArgument (.rootPath path)) := by
  rw [← isRootPath_iff_spelled] at h
  rw [Chain.versionAt, version?, if_neg h]

/-- Versions and root paths are in bijection. Every version is read back from its path. A text is read
as a version exactly if it is spelled as a marker, 64 binary digits and the suffix, which is what the check
of its bytes finds, and any other text is refused; reading never cuts a text where it cannot be cut. What is
read leads back to the path, so versions never share a path and every such path belongs to one version. -/
theorem versions_correspond :
    (∀ v, isRootPath (ofVersion v) = true ∧ Chain.versionAt (ofVersion v) = .ok v) ∧
      (∀ path, ((∃ v, Chain.versionAt path = .ok v) ↔ Spelled path) ∧
        (isRootPath path = true ↔ Spelled path) ∧
        (¬ Spelled path → Chain.versionAt path = .error (.invalidArgument (.rootPath path))) ∧
        readByCuts? path = some (Chain.versionAt path)) ∧
      (∀ path v, Chain.versionAt path = .ok v → ofVersion v = path) ∧
      (∀ v w, ofVersion v = ofVersion w → v = w) ∧
      ∀ path, Spelled path → ∃! v, ofVersion v = path := by
  refine ⟨fun v => ⟨isRootPath_ofVersion v, versionAt_ofVersion v⟩, fun path => ⟨⟨?_, ?_⟩, ?_⟩,
    fun path v => ofVersion_of_versionAt, fun v w h => ofVersion_injective h, ?_⟩
  · rintro ⟨v, hRead⟩
    rw [← ofVersion_of_versionAt hRead]
    exact spelled_ofVersion v
  · intro hSpelled
    obtain ⟨v, rfl⟩ := (isRootPath_iff_exists path).mp ((isRootPath_iff_spelled path).mpr hSpelled)
    exact ⟨v, versionAt_ofVersion v⟩
  · exact ⟨isRootPath_iff_spelled path, versionAt_of_not_spelled, readByCuts?_eq path⟩
  · intro path hSpelled
    obtain ⟨v, rfl⟩ := (isRootPath_iff_exists path).mp ((isRootPath_iff_spelled path).mpr hSpelled)
    exact ⟨v, rfl, fun w h => ofVersion_injective h⟩

/-- A text of the right size that ends in a character of two bytes where the digits should end. -/
example : (Text.bytes "_00000000000000000000000000000000000000000000000000000000000000é.ipc").length = size ∧
    readByCuts? "_00000000000000000000000000000000000000000000000000000000000000é.ipc" =
      some (.error (.invalidArgument
        (.rootPath "_00000000000000000000000000000000000000000000000000000000000000é.ipc"))) := by
  refine ⟨by decide +kernel, ?_⟩
  rfl

end RootPath

end SnapshotCatalog
