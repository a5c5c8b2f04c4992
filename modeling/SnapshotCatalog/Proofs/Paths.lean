import SnapshotCatalog.Hint
import SnapshotCatalog.Path.Definition
import SnapshotCatalog.Proofs.RootPaths
/-!
Roots, the hint and definitions never share a path. Root paths end differently from definition
paths and from the hint, and the path of a definition ends with the identifier it was made with, so
definitions with different identifiers lie apart whatever they define. Root paths, the hint and
definitions of lakehouses are accepted wherever a lakehouse lies.
-/
namespace SnapshotCatalog

namespace Uuid

theorem digitChar_injective {m n : Nat} (hm : m < 16) (hn : n < 16)
    (h : m.digitChar = n.digitChar) : m = n := by
  have hAll : ∀ a < 16, ∀ b < 16, a.digitChar = b.digitChar → a = b := by decide
  exact hAll m hm n hn h

/-- The digit at a place, counted from the most significant one. -/
def digit (id : Uuid) (place : Nat) : Nat := id.bits.toNat >>> (4 * (31 - place)) % 16

theorem digit_eq_of_digits_eq {id other : Uuid} {start count : Nat}
    (h : id.digits start count = other.digits start count) {place : Nat} (hStart : start ≤ place)
    (hEnd : place < start + count) : id.digit place = other.digit place := by
  have hPlace := List.map_inj_left.mp h (place - start) (List.mem_range.mpr (by omega))
  rw [show start + (place - start) = place by omega] at hPlace
  exact digitChar_injective (Nat.mod_lt _ (by decide)) (Nat.mod_lt _ (by decide)) hPlace

/-- The text shows every digit. -/
theorem digit_eq_of_text_eq {id other : Uuid} (h : id.text = other.text) {place : Nat}
    (hPlace : place < 32) : id.digit place = other.digit place := by
  have hLength (x : Uuid) (start count : Nat) : (x.digits start count).length = count := by
    simp [digits]
  have hList := String.ofList_injective h
  simp only [List.append_assoc, List.cons_append] at hList
  obtain ⟨hFirst, hList⟩ := List.append_inj hList (by simp [hLength])
  obtain ⟨hSecond, hList⟩ := List.append_inj (List.cons.inj hList).2 (by simp [hLength])
  obtain ⟨hThird, hList⟩ := List.append_inj (List.cons.inj hList).2 (by simp [hLength])
  obtain ⟨hFourth, hList⟩ := List.append_inj (List.cons.inj hList).2 (by simp [hLength])
  have hFifth := (List.cons.inj hList).2
  by_cases h8 : place < 8
  · exact digit_eq_of_digits_eq hFirst (by omega) (by omega)
  by_cases h12 : place < 12
  · exact digit_eq_of_digits_eq hSecond (by omega) (by omega)
  by_cases h16 : place < 16
  · exact digit_eq_of_digits_eq hThird (by omega) (by omega)
  by_cases h20 : place < 20
  · exact digit_eq_of_digits_eq hFourth (by omega) (by omega)
  exact digit_eq_of_digits_eq hFifth (by omega) (by omega)

theorem text_injective : Function.Injective text := by
  intro id other h
  have hBits : id.bits.toNat = other.bits.toNat := by
    apply Nat.eq_of_testBit_eq
    intro j
    by_cases hj : j < 128
    · have hDigit := congrArg (fun n => n.testBit (j % 4))
        (digit_eq_of_text_eq h (by omega : 31 - j / 4 < 32))
      have hPlace : 4 * (31 - (31 - j / 4)) + j % 4 = j := by omega
      have hSmall : j % 4 < 4 := Nat.mod_lt j (by decide)
      simp only [digit, show (16 : Nat) = 2 ^ 4 from rfl, Nat.testBit_mod_two_pow, hSmall,
        Nat.testBit_shiftRight, hPlace, decide_true, Bool.true_and] at hDigit
      exact hDigit
    · have hBound : 2 ^ 128 ≤ 2 ^ j := Nat.pow_le_pow_right (by decide) (Nat.le_of_not_lt hj)
      rw [Nat.testBit_lt_two_pow (Nat.lt_of_lt_of_le id.bits.isLt hBound),
        Nat.testBit_lt_two_pow (Nat.lt_of_lt_of_le other.bits.isLt hBound)]
  cases id
  cases other
  exact congrArg Uuid.mk (BitVec.eq_of_toNat_eq hBits)

theorem length_text (id : Uuid) : id.text.toList.length = 36 := by
  simp [text, digits]

end Uuid

namespace DefinitionPath

/-- A path was made for a definition with this identifier. -/
def Bears (id : Uuid) (path : String) : Prop := ∃ front, path = front ++ (id.text ++ suffix)

theorem bears_ofLakehouse (id : Uuid) : Bears id (ofLakehouse id) :=
  ⟨lakehouseStart, String.append_assoc⟩

theorem bears_ofNamespace (ns : String) (id : Uuid) : Bears id (ofNamespace ns id) := by
  refine ⟨directories (ns ++ "-" ++ id.text ++ suffix) ++ "-" ++ (ns ++ "-"), ?_⟩
  show directories (ns ++ "-" ++ id.text ++ suffix) ++ "-" ++ (ns ++ "-" ++ id.text ++ suffix) = _
  simp only [String.append_assoc]

theorem bears_ofTable (ns table : String) (id : Uuid) : Bears id (ofTable ns table id) := by
  refine ⟨directories (ns ++ "-" ++ table ++ "-" ++ id.text ++ suffix) ++ "-" ++
    (ns ++ "-" ++ table ++ "-"), ?_⟩
  show directories (ns ++ "-" ++ table ++ "-" ++ id.text ++ suffix) ++ "-" ++
    (ns ++ "-" ++ table ++ "-" ++ id.text ++ suffix) = _
  simp only [String.append_assoc]

/-- A path bears one identifier only. -/
theorem Bears.unique {id other : Uuid} {path : String} (h : Bears id path)
    (hOther : Bears other path) : id = other := by
  obtain ⟨front, rfl⟩ := h
  obtain ⟨front', hSame⟩ := hOther
  have hLists := congrArg String.toList hSame
  simp only [String.toList_append] at hLists
  have hTails := List.append_inj_right' hLists (by simp [Uuid.length_text])
  have hTexts := List.append_inj_left' hTails rfl
  exact Uuid.text_injective (String.toList_inj.mp hTexts)

theorem Bears.getLast? {id : Uuid} {path : String} (h : Bears id path) :
    path.toList.getLast? = some 'b' := by
  obtain ⟨front, rfl⟩ := h
  have hSuffix : suffix.toList = ['.', 'b', 'i', 'n', 'p', 'b'] := by decide
  simp [String.toList_append, hSuffix]

end DefinitionPath

namespace RootPath

theorem toList_ofVersion (v : Version) :
    (ofVersion v).toList = '_' :: digits v ++ ['.', 'i', 'p', 'c'] := by
  simp [ofVersion, show suffix.toList = ['.', 'i', 'p', 'c'] by decide]

theorem getLast?_ofVersion (v : Version) : (ofVersion v).toList.getLast? = some 'c' := by
  rw [toList_ofVersion, List.getLast?_append]
  rfl

theorem ofVersion_ne_hint (v : Version) : ofVersion v ≠ Hint.path := by
  intro h
  have hLast := getLast?_ofVersion v
  rw [h] at hLast
  revert hLast
  decide

end RootPath

namespace DefinitionPath

theorem Bears.ne_root {id : Uuid} {path : String} (h : Bears id path) (v : Version) :
    path ≠ RootPath.ofVersion v := by
  rintro rfl
  have hLast := h.getLast?
  rw [RootPath.getLast?_ofVersion] at hLast
  cases hLast

theorem Bears.ne_hint {id : Uuid} {path : String} (h : Bears id path) : path ≠ Hint.path := by
  rintro rfl
  have hLast := h.getLast?
  revert hLast
  decide

end DefinitionPath

namespace Path

/-- A character that no rule about paths looks at. -/
def isPlain (c : Char) : Bool := c != '/' && c != '\\' && c != '%' && !isControl c

theorem segments_of_not_mem {cs : List Char} (h : '/' ∉ cs) : segments cs = [cs] := by
  induction cs with
  | nil => rfl
  | cons c rest ih =>
      have hOther : c ≠ '/' := fun hc => h (hc ▸ List.mem_cons_self)
      have hRest := ih fun hMem => h (List.mem_cons_of_mem c hMem)
      rw [segments, if_neg hOther, hRest]

/-- A path below another has the segments of both. -/
theorem segments_below (front rest : List Char) :
    segments (front ++ '/' :: rest) = segments front ++ segments rest := by
  induction front with
  | nil => rfl
  | cons c front ih =>
      rw [List.cons_append, segments, segments, ih]
      split
      · rfl
      · cases hSegments : segments front with
        | nil => exact absurd hSegments (segments_ne_nil front)
        | cons first others => rfl

theorem segments_append {front : List Char} (h : '/' ∉ front) (rest : List Char) :
    segments (front ++ '/' :: rest) = front :: segments rest := by
  rw [segments_below, segments_of_not_mem h]
  rfl

theorem isDots_of_long {segment : List Char} (h : 2 < segment.length) : isDots segment = false := by
  rw [isDots, Bool.or_eq_false_iff]
  constructor
  · apply beq_eq_false_iff_ne.mpr
    rintro rfl
    simp at h
  · apply beq_eq_false_iff_ne.mpr
    rintro rfl
    simp at h

theorem mem_segments {cs : List Char} {c : Char} (h : c ∈ cs) :
    c = '/' ∨ ∃ segment ∈ segments cs, c ∈ segment := by
  induction cs with
  | nil => cases h
  | cons d rest ih =>
      by_cases hSlash : d = '/'
      · rw [segments, if_pos hSlash]
        rcases List.mem_cons.mp h with rfl | h
        · exact .inl hSlash
        · rcases ih h with hc | ⟨segment, hSegment, hc⟩
          · exact .inl hc
          · exact .inr ⟨segment, List.mem_cons_of_mem _ hSegment, hc⟩
      · rw [segments, if_neg hSlash]
        cases hSegments : segments rest with
        | nil => exact absurd hSegments (segments_ne_nil rest)
        | cons first others =>
            rw [hSegments] at ih
            rcases List.mem_cons.mp h with rfl | h
            · exact .inr ⟨_, List.mem_cons_self, List.mem_cons_self⟩
            · rcases ih h with hc | ⟨segment, hSegment, hc⟩
              · exact .inl hc
              · rcases List.mem_cons.mp hSegment with rfl | hSegment
                · exact .inr ⟨_, List.mem_cons_self, List.mem_cons_of_mem d hc⟩
                · exact .inr ⟨segment, List.mem_cons_of_mem _ hSegment, hc⟩

theorem not_mem_of_plain {cs : List Char} (h : ∀ c ∈ cs, isPlain c = true) : '/' ∉ cs :=
  fun hSlash => absurd (h _ hSlash) (by decide)

theorem check_eq_ok_iff {path : String} : check path = .ok () ↔ fault? path = none := by
  rw [check]
  cases fault? path with
  | none => simp
  | some fault => simp

/-- A path is accepted whose segments have plain characters and are too long to be dots. -/
theorem check_of_segments {path : String}
    (h : ∀ segment ∈ segments path.toList, 2 < segment.length ∧ ∀ c ∈ segment, isPlain c = true) :
    check path = .ok () := by
  have hPlain {c : Char} (hc : c ∈ path.toList) : c = '/' ∨ isPlain c = true := by
    rcases mem_segments hc with hSlash | ⟨segment, hSegment, hMem⟩
    · exact .inl hSlash
    · exact .inr ((h segment hSegment).2 c hMem)
  have hOther {c : Char} (hSlash : c ≠ '/') (hc : isPlain c = false) : c ∉ path.toList := by
    intro hMem
    rcases hPlain hMem with rfl | hPlain
    · exact hSlash rfl
    · rw [hc] at hPlain
      cases hPlain
  have hBackslash : '\\' ∉ path.toList := hOther (by decide) (by decide)
  have hPercent : '%' ∉ path.toList := hOther (by decide) (by decide)
  have hControl : path.toList.any isControl = false := by
    rw [List.any_eq_false]
    intro c hc
    rcases hPlain hc with rfl | hPlain
    · decide
    · simp only [isPlain, Bool.and_eq_true, Bool.not_eq_true'] at hPlain
      simp [hPlain.2]
  have hDots : (segments path.toList).any isDots = false := by
    rw [List.any_eq_false]
    intro segment hMem
    simp [isDots_of_long (h segment hMem).1]
  -- An empty path and one that begins with a slash have an empty first segment.
  have hHead : path.toList.head? ≠ some '/' := by
    intro hHead
    obtain ⟨rest, hRest⟩ := List.head?_eq_some_iff.mp hHead
    rw [hRest, segments, if_pos rfl] at h
    exact absurd (h [] List.mem_cons_self).1 (by decide)
  have hEmpty : path.toList.isEmpty = false := by
    cases hList : path.toList with
    | nil =>
        rw [hList] at h
        exact absurd (h [] List.mem_cons_self).1 (by decide)
    | cons => rfl
  have hNone : fault? path = none := by
    simp [fault?, hEmpty, hHead, hBackslash, hPercent, hControl, hDots]
  exact check_eq_ok_iff.mpr hNone

/-- A path of plain characters is accepted once it is too long to be dots. -/
theorem check_of_plain {path : String} (hPlain : ∀ c ∈ path.toList, isPlain c = true)
    (hLong : 2 < path.toList.length) : check path = .ok () := by
  apply check_of_segments
  rw [segments_of_not_mem (not_mem_of_plain hPlain)]
  intro segment hMem
  rw [List.mem_singleton.mp hMem]
  exact ⟨hLong, hPlain⟩

/-- A root path is a marker, binary digits and a suffix. -/
theorem isPlain_of_mem_root {v : Version} {c : Char} (hc : c ∈ (RootPath.ofVersion v).toList) :
    isPlain c = true := by
  rw [RootPath.toList_ofVersion] at hc
  simp only [List.cons_append, List.mem_cons, List.mem_append, RootPath.digits,
    List.mem_map] at hc
  rcases hc with rfl | ⟨i, -, rfl⟩ | rfl | rfl | rfl | rfl | h
  · decide
  · cases v.toNat.testBit i
    · decide
    · decide
  · decide
  · decide
  · decide
  · decide
  · cases h

end Path

namespace Site

variable (site : Site)

theorem key_of_check {path : String} (h : Path.check path = .ok ()) :
    site.key path = .ok (site.resolve path) := by
  rw [key, h]
  rfl

theorem check_of_key {path key : String} (h : site.key path = .ok key) :
    Path.check path = .ok () := by
  cases hCheck : Path.check path with
  | ok value => rfl
  | error e =>
      rw [Site.key, hCheck] at h
      cases h

/-- What is asked of the store for an accepted path is its place below the directory. -/
theorem eq_resolve_of_key {path key : String} (h : site.key path = .ok key) :
    key = site.resolve path := by
  cases hCheck : Path.check path with
  | ok value =>
      rw [site.key_of_check hCheck] at h
      exact (Except.ok.inj h).symm
  | error e =>
      rw [Site.key, hCheck] at h
      cases h

/-- The key of a path is how all keys begin, and then the path. -/
theorem resolve_eq (path : String) : site.resolve path = site.keyStart ++ path := by
  unfold keyStart resolve
  split
  · rw [String.append_empty]
  · rw [String.empty_append]

theorem resolve_injective : Function.Injective site.resolve := by
  intro path other h
  rw [site.resolve_eq, site.resolve_eq] at h
  exact (String.append_right_inj _).mp h

/-- Paths other than the hint lie apart from it. -/
theorem resolve_ne_hint {path : String} (h : path ≠ Hint.path) :
    site.resolve path ≠ site.resolve Hint.path :=
  fun hSame => h (site.resolve_injective hSame)

/-- Root paths are accepted wherever the lakehouse lies. -/
theorem key_root (v : Version) :
    site.key (RootPath.ofVersion v) = .ok (site.resolve (RootPath.ofVersion v)) := by
  apply site.key_of_check
  apply Path.check_of_plain
  · exact fun _ => Path.isPlain_of_mem_root
  · simp [RootPath.toList_ofVersion]

theorem key_hint : site.key Hint.path = .ok (site.resolve Hint.path) :=
  site.key_of_check rfl

end Site

end SnapshotCatalog
