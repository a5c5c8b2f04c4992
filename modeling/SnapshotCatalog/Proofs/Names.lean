import SnapshotCatalog.Key
import SnapshotCatalog.Proofs.RootPaths
/-!
Names that are accepted and what padding makes of them. Such a name has no space and no character
before it, so the spaces that pad it can be told apart from it and come before whatever might follow
in a longer name. Padded names therefore determine the names and are in their order.
-/
namespace SnapshotCatalog

/-! ### Padding -/

/-- Padding two texts to one length keeps their order, when what pads them comes before all their
bytes. -/
theorem append_replicate_lt {pad : UInt8} {front other : List UInt8} (h : front < other)
    (hOther : ∀ b ∈ other, pad < b) {j k : Nat}
    (hLength : front.length + j = other.length + k) :
    front ++ List.replicate j pad < other ++ List.replicate k pad := by
  induction front generalizing other with
  | nil =>
      cases other with
      | nil => exact absurd h (List.lt_irrefl _)
      | cons b rest =>
          obtain ⟨j, rfl⟩ : ∃ i, j = i + 1 := ⟨rest.length + k, by simp at hLength; omega⟩
          rw [List.nil_append, List.replicate_succ, List.cons_append, List.cons_lt_cons_iff]
          exact .inl (hOther b List.mem_cons_self)
  | cons a front ih =>
      cases other with
      | nil => cases h
      | cons b rest =>
          rw [List.cons_append, List.cons_append, List.cons_lt_cons_iff]
          rcases List.cons_lt_cons_iff.mp h with hLess | ⟨hSame, hRest⟩
          · exact .inl hLess
          · refine .inr ⟨hSame, ih hRest (fun b hb => hOther b (List.mem_cons_of_mem _ hb)) ?_⟩
            simp only [List.length_cons] at hLength
            omega

theorem lt_of_mem_utf8EncodeChar {c : Char} (hc : 0x20 < c.toNat) {b : UInt8}
    (hb : b ∈ String.utf8EncodeChar c) : 0x20 < b := by
  have hValue : c.val.toNat = c.toNat := rfl
  have hBound : c.toNat < 0x110000 := by
    have hValid := c.valid
    simp only [UInt32.isValidChar, Nat.isValidChar, hValue] at hValid
    omega
  rw [UInt8.lt_iff_toNat_lt, UInt8.toNat_ofNat]
  simp only [String.utf8EncodeChar, hValue] at hb
  split at hb
  · simp only [List.mem_cons, List.not_mem_nil, or_false] at hb
    subst hb
    simp only [UInt8.toNat_ofNat']
    omega
  · split at hb
    · simp only [List.mem_cons, List.not_mem_nil, or_false] at hb
      rcases hb with rfl | rfl <;> simp only [UInt8.toNat_ofNat'] <;> omega
    · split at hb
      · simp only [List.mem_cons, List.not_mem_nil, or_false] at hb
        rcases hb with rfl | rfl | rfl <;> simp only [UInt8.toNat_ofNat'] <;> omega
      · simp only [List.mem_cons, List.not_mem_nil, or_false] at hb
        rcases hb with rfl | rfl | rfl | rfl <;> simp only [UInt8.toNat_ofNat'] <;> omega

namespace Text

theorem mem_bytes {s : String} {b : UInt8} (hb : b ∈ bytes s) :
    ∃ c ∈ s.toList, b ∈ String.utf8EncodeChar c := by
  rw [← String.ofList_toList (s := s), bytes_ofList] at hb
  exact List.mem_flatMap.mp hb

theorem bytes_spaces (n : Nat) :
    bytes (String.ofList (List.replicate n ' ')) = List.replicate n 0x20 := by
  rw [bytes_ofList]
  induction n with
  | zero => rfl
  | succ n ih =>
      rw [List.replicate_succ, List.flatMap_cons, ih]
      rfl

theorem dropTrailing_append_replicate {c : Char} {cs : List Char} (h : c ∉ cs) (n : Nat) :
    dropTrailing c (cs ++ List.replicate n c) = cs := by
  have hHead : cs.reverse.dropWhile (· == c) = cs.reverse := by
    cases hReverse : cs.reverse with
    | nil => rfl
    | cons last rest =>
        have hMem : last ∈ cs := List.mem_reverse.mp (hReverse ▸ List.mem_cons_self)
        have hOther : ¬ (last == c) = true := fun hSame => h (beq_iff_eq.mp hSame ▸ hMem)
        exact List.dropWhile_cons_of_neg hOther
  rw [dropTrailing, List.reverse_append, List.reverse_replicate, List.dropWhile_append_of_pos
    fun a ha => beq_iff_eq.mpr (List.eq_of_mem_replicate ha), hHead, List.reverse_reverse]

theorem utf8ByteSize_eq (s : String) :
    s.utf8ByteSize = (s.toList.flatMap String.utf8EncodeChar).length := by
  rw [← bytes_ofList, String.ofList_toList, length_bytes]

theorem utf8EncodeChar_of_ascii {c : Char} (hc : c.toNat < 0x80) :
    String.utf8EncodeChar c = [UInt8.ofNat c.toNat] := by
  have hValue : c.val.toNat = c.toNat := rfl
  simp only [String.utf8EncodeChar, hValue]
  rw [if_pos (by omega)]

/-- ASCII characters take one byte each. -/
theorem bytes_ofList_of_ascii {cs : List Char} (h : ∀ c ∈ cs, c.toNat < 0x80) :
    bytes (String.ofList cs) = cs.map fun c => UInt8.ofNat c.toNat := by
  rw [bytes_ofList]
  induction cs with
  | nil => rfl
  | cons c cs ih =>
      obtain ⟨hFirst, hRest⟩ := List.forall_mem_cons.mp h
      rw [List.flatMap_cons, utf8EncodeChar_of_ascii hFirst, ih hRest]
      rfl

theorem utf8ByteSize_of_ascii {s : String} (h : ∀ c ∈ s.toList, c.toNat < 0x80) :
    s.utf8ByteSize = s.toList.length := by
  have hBytes := bytes_ofList_of_ascii h
  rw [String.ofList_toList] at hBytes
  rw [← length_bytes, hBytes, List.length_map]

/-- A text is cut where its first part ends. -/
theorem cutAtByte?_append (front back : String) :
    cutAtByte? front.utf8ByteSize (front.toList ++ back.toList) =
      some (front.toList, back.toList) := by
  rw [utf8ByteSize_eq]
  generalize front.toList = cs
  generalize back.toList = rest
  induction cs with
  | nil =>
      cases rest <;> rfl
  | cons c cs ih =>
      obtain ⟨n, hn⟩ := Nat.exists_eq_succ_of_ne_zero (Nat.ne_of_gt c.utf8Size_pos)
      generalize hSize : (cs.flatMap String.utf8EncodeChar).length = size at ih
      have hLength : ((c :: cs).flatMap String.utf8EncodeChar).length = n + size + 1 := by
        rw [List.flatMap_cons, List.length_append, String.length_utf8EncodeChar, hSize, hn]
        omega
      rw [hLength, List.cons_append, cutAtByte?, if_pos (by omega)]
      have hRest : n + size + 1 - c.utf8Size = size := by omega
      rw [hRest, ih]
      rfl

/-- Whether a text begins so, when its first part has the size of the beginning. -/
theorem startsWith_append_of_size {front back start : String}
    (h : front.utf8ByteSize = start.utf8ByteSize) :
    startsWith (front ++ back) start = true ↔ front = start := by
  constructor
  · intro hStarts
    obtain ⟨rest, hRest⟩ := startsWith_iff.mp hStarts
    rw [bytes_append] at hRest
    exact bytes_inj.mp (List.append_inj_left hRest.symm h)
  · rintro rfl
    exact startsWith_append front back

theorem startsWith_of_append {s front back : String} (h : startsWith s (front ++ back) = true) :
    startsWith s front = true := by
  rw [startsWith_iff, bytes_append] at h
  exact startsWith_iff.mpr ((List.prefix_append _ _).trans h)

theorem before_append_left (front : String) {s t : String} (h : Before s t) :
    Before (front ++ s) (front ++ t) := by
  unfold Before at h ⊢
  rw [bytes_append, bytes_append]
  exact List.append_left_lt h

end Text

/-! ### Names -/

/-- The names that are accepted up to a size. -/
structure Name.Accepted (limit : Nat) (name : String) : Prop where
  nonempty : name ≠ ""
  size : name.utf8ByteSize ≤ limit
  allowed : ∀ c ∈ name.toList, Name.isReserved c = false ∧ Name.isPathCharacter c = false

namespace Name

variable {kind name : String} {limit : Nat}

theorem check_eq_ok_iff {value : Unit} :
    check kind name limit = .ok value ↔ Accepted limit name := by
  rw [check]
  constructor
  · intro h
    cases hFault : fault? kind name limit with
    | some fault =>
        rw [hFault] at h
        cases h
    | none =>
        rw [fault?] at hFault
        split at hFault
        · cases hFault
        · next hNonempty =>
          split at hFault
          · cases hFault
          · next hSize =>
            split at hFault
            · cases hFault
            · next hReserved =>
              have hPath := Option.map_eq_none_iff.mp hFault
              rw [List.find?_eq_none] at hReserved hPath
              exact ⟨hNonempty, Nat.le_of_not_lt hSize, fun c hc =>
                ⟨Bool.eq_false_iff.mpr (hReserved c hc), Bool.eq_false_iff.mpr (hPath c hc)⟩⟩
  · intro h
    have hReserved : name.toList.find? isReserved = none :=
      List.find?_eq_none.mpr fun c hc => Bool.eq_false_iff.mp (h.allowed c hc).1
    have hPath : name.toList.find? isPathCharacter = none :=
      List.find?_eq_none.mpr fun c hc => Bool.eq_false_iff.mp (h.allowed c hc).2
    rw [fault?, if_neg h.nonempty, if_neg (Nat.not_lt.mpr h.size), hReserved, hPath]
    rfl

namespace Accepted

variable {other : String} {width : Nat}

theorem lt_toNat (h : Accepted limit name) {c : Char} (hc : c ∈ name.toList) : 0x20 < c.toNat := by
  have hReserved := (h.allowed c hc).1
  simp only [isReserved, Bool.or_eq_false_iff, decide_eq_false_iff_not, beq_eq_false_iff_ne]
    at hReserved
  have hSpace : c.toNat ≠ 0x20 := fun hSame => hReserved.2 (Char.toNat_inj.mp hSame)
  omega

theorem lt_of_mem_bytes (h : Accepted limit name) {b : UInt8} (hb : b ∈ Text.bytes name) :
    0x20 < b := by
  obtain ⟨c, hc, hb⟩ := Text.mem_bytes hb
  exact lt_of_mem_utf8EncodeChar (h.lt_toNat hc) hb

/-- A name is what is left of it when its padding is taken off. -/
theorem unpadded_padded (h : Accepted limit name) (width : Nat) :
    Key.unpadded (Key.padded name width).toList = name := by
  have hSpace : ' ' ∉ name.toList := fun hc => absurd (h.lt_toNat hc) (by decide)
  rw [Key.unpadded, Key.padded, String.toList_append, String.toList_ofList,
    Text.dropTrailing_append_replicate hSpace, String.ofList_toList]

theorem padded_injective (h : Accepted limit name) (hOther : Accepted limit other)
    (hSame : Key.padded name width = Key.padded other width) : name = other := by
  rw [← h.unpadded_padded width, hSame, hOther.unpadded_padded width]

theorem length_padded (h : Accepted limit name) :
    (Text.bytes (Key.padded name limit)).length = limit := by
  rw [Key.padded, Text.bytes_append, Text.bytes_spaces, List.length_append, Text.length_bytes,
    List.length_replicate, Nat.add_sub_cancel' h.size]

/-- Padded names are in the order of the names. -/
theorem before_padded (h : Accepted limit name) (hOther : Accepted limit other)
    (hBefore : Text.Before name other) :
    Text.Before (Key.padded name limit) (Key.padded other limit) := by
  have hLength := h.length_padded.trans hOther.length_padded.symm
  unfold Text.Before at hBefore ⊢
  rw [Key.padded, Key.padded, Text.bytes_append, Text.bytes_append, Text.bytes_spaces,
    Text.bytes_spaces] at hLength ⊢
  refine append_replicate_lt hBefore (fun b hb => hOther.lt_of_mem_bytes hb) ?_
  simpa only [List.length_append, List.length_replicate] using hLength

end Accepted

end Name

end SnapshotCatalog
