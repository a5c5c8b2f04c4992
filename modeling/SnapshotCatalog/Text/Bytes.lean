/-!
Texts seen as their UTF-8 bytes. Sizes and limits are counted in bytes and keys are ordered by
bytes, so the bytes of a text are a definition of their own here. The main statements say that the
bytes determine the text and that `Before` is a strict linear order.
-/
namespace SnapshotCatalog.Text

/-- The UTF-8 bytes of a text. -/
def bytes (s : String) : List UInt8 := s.toByteArray.data.toList

theorem bytes_append (s t : String) : bytes (s ++ t) = bytes s ++ bytes t := by
  simp [bytes, String.toByteArray_append]

@[simp] theorem bytes_inj {s t : String} : bytes s = bytes t ↔ s = t := by
  constructor
  · intro h
    have hArray : s.toByteArray.data = t.toByteArray.data := Array.toList_inj.mp h
    exact String.toByteArray_inj.mp (ByteArray.ext hArray)
  · rintro rfl
    rfl

theorem length_bytes (s : String) : (bytes s).length = s.utf8ByteSize := rfl

/-- The text with these bytes. There is none when they are not UTF-8. -/
def ofBytes? (data : List UInt8) : Option String := String.fromUTF8? ⟨data.toArray⟩

@[simp] theorem ofBytes?_bytes (s : String) : ofBytes? (bytes s) = some s := by
  have h : (ByteArray.mk (bytes s).toArray) = s.toByteArray := ByteArray.ext (by simp [bytes])
  simp [ofBytes?, String.fromUTF8?, h, s.isValidUTF8, String.fromUTF8]

/-- Byte order: the order in which keys are stored and listed. -/
def Before (s t : String) : Prop := bytes s < bytes t

instance : DecidableRel Before := fun s t => inferInstanceAs (Decidable (bytes s < bytes t))

theorem Before.irrefl (s : String) : ¬ Before s s := List.lt_irrefl (bytes s)

theorem Before.trans {r s t : String} (first : Before r s) (second : Before s t) : Before r t :=
  List.lt_trans first second

theorem Before.asymm {s t : String} (h : Before s t) : ¬ Before t s := List.lt_asymm h

/-- Two texts neither of which comes before the other are the same text. -/
theorem eq_of_not_before {s t : String} (left : ¬ Before s t) (right : ¬ Before t s) : s = t :=
  bytes_inj.mp (List.le_antisymm (List.not_lt.mp right) (List.not_lt.mp left))

theorem Before.ne {s t : String} (h : Before s t) : s ≠ t := by
  rintro rfl
  exact Before.irrefl s h

/-- Whether `s` begins with the bytes of `start`. -/
def startsWith (s start : String) : Bool := (bytes start).isPrefixOf (bytes s)

/-- Whether `s` ends with the bytes of `tail`. -/
def endsWith (s tail : String) : Bool := (bytes tail).isSuffixOf (bytes s)

theorem startsWith_iff {s start : String} : startsWith s start = true ↔ bytes start <+: bytes s :=
  List.isPrefixOf_iff_prefix

theorem startsWith_append (start rest : String) : startsWith (start ++ rest) start = true :=
  startsWith_iff.mpr ⟨bytes rest, (bytes_append start rest).symm⟩

/-- Cuts characters at a byte offset. There is no such cut when the offset lies past the end or
inside a character. -/
def cutAtByte? : Nat → List Char → Option (List Char × List Char)
  | 0, cs => some ([], cs)
  | _ + 1, [] => none
  | n + 1, c :: cs =>
    if c.utf8Size ≤ n + 1 then
      (cutAtByte? (n + 1 - c.utf8Size) cs).map fun (front, back) => (c :: front, back)
    else none

theorem eq_append_of_cutAtByte? {n : Nat} {cs front back : List Char}
    (h : cutAtByte? n cs = some (front, back)) : cs = front ++ back := by
  induction cs generalizing n front with
  | nil => cases n <;> simp_all [cutAtByte?]
  | cons c cs ih =>
    cases n with
    | zero => simp_all [cutAtByte?]
    | succ n =>
      rw [cutAtByte?] at h
      split at h
      · obtain ⟨⟨front', back'⟩, hCut, hPair⟩ := Option.map_eq_some_iff.mp h
        obtain ⟨rfl, rfl⟩ := Prod.mk.inj hPair
        simp [ih hCut]
      · simp at h

/-- Drops the copies of one character at the end of a text. -/
def dropTrailing (c : Char) (cs : List Char) : List Char :=
  (cs.reverse.dropWhile (· == c)).reverse

/-- Drops the copies of one character at both ends of a text. -/
def strip (c : Char) (s : String) : String :=
  String.ofList (dropTrailing c (s.toList.dropWhile (· == c)))

/-- The text that follows `start` in `s`. There is none when `s` does not begin with `start`. -/
def after? (start s : String) : Option String :=
  (start.toList.isPrefixOf? s.toList).map String.ofList

end SnapshotCatalog.Text
