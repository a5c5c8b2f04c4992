import SnapshotCatalog.Proofs.Territory
/-!
Normalised keys. A bucket drops empty segments and encodes characters, and both could make one key of two
paths. Encoding cannot: every byte is written in a way of its own, because the percent sign that begins
an encoded byte is itself always encoded. Dropping empty segments cannot either within one lakehouse: all
its keys have the empty segments of its directory, and none below it.
-/
namespace SnapshotCatalog.Path

/-! ### Encoding -/

/-- A byte as a store keeps it: as itself, or encoded. -/
def keptByte (b : UInt8) : List Char :=
  if b.toNat < 0x80 ∧ isEncoded (Char.ofNat b.toNat) = false then [Char.ofNat b.toNat] else encodedByte b

theorem upperDigit_injective {m n : Nat} (hm : m < 16) (hn : n < 16)
    (h : m.digitChar.toUpper = n.digitChar.toUpper) : m = n := by
  have hAll : ∀ a < 16, ∀ b < 16, a.digitChar.toUpper = b.digitChar.toUpper → a = b := by decide
  exact hAll m hm n hn h

theorem keptByte_cases (b : UInt8) :
    (∃ c, keptByte b = [c] ∧ isEncoded c = false ∧ c.toNat = b.toNat) ∨ keptByte b = encodedByte b := by
  rw [keptByte]
  split
  · next hKept =>
    have hAscii : ∀ n < 0x80, (Char.ofNat n).toNat = n := by decide
    exact .inl ⟨_, rfl, hKept.2, hAscii _ hKept.1⟩
  · exact .inr rfl

/-- An encoded byte shows both its digits. -/
theorem encodedByte_append_inj {b other : UInt8} {rest more : List Char}
    (h : encodedByte b ++ rest = encodedByte other ++ more) : b = other ∧ rest = more := by
  have hBound := b.toNat_lt
  have hOther := other.toNat_lt
  simp only [encodedByte, List.cons_append, List.nil_append, List.cons.injEq, true_and] at h
  obtain ⟨hHigh, hLow, hRest⟩ := h
  have hFirst := upperDigit_injective (by omega) (by omega) hHigh
  have hSecond := upperDigit_injective (by omega) (by omega) hLow
  exact ⟨UInt8.toNat_inj.mp (by omega), hRest⟩

/-- What a byte is kept as tells the byte, whatever follows. -/
theorem keptByte_append_inj {b other : UInt8} {rest more : List Char}
    (h : keptByte b ++ rest = keptByte other ++ more) : b = other ∧ rest = more := by
  have hPercent : isEncoded '%' = true := by decide
  rcases keptByte_cases b with ⟨c, hb, hPlain, hSame⟩ | hb
  · rcases keptByte_cases other with ⟨d, hOther, -, hSame'⟩ | hOther
    · rw [hb, hOther] at h
      obtain ⟨rfl, hRest⟩ := List.cons.inj h
      exact ⟨UInt8.toNat_inj.mp (hSame.symm.trans hSame'), hRest⟩
    · rw [hb, hOther] at h
      rw [(List.cons.inj h).1, hPercent] at hPlain
      cases hPlain
  · rcases keptByte_cases other with ⟨d, hOther, hPlain, -⟩ | hOther
    · rw [hb, hOther] at h
      rw [← (List.cons.inj h).1, hPercent] at hPlain
      cases hPlain
    · rw [hb, hOther] at h
      exact encodedByte_append_inj h

theorem keptByte_ne_nil (b : UInt8) : keptByte b ≠ [] := by
  rcases keptByte_cases b with ⟨c, hb, -⟩ | hb
  · rw [hb]
    exact List.cons_ne_nil _ _
  · rw [hb]
    exact List.cons_ne_nil _ _

theorem flatMap_keptByte_injective : Function.Injective fun data : List UInt8 => data.flatMap keptByte := by
  intro data other h
  dsimp only at h
  induction data generalizing other with
  | nil =>
      cases other with
      | nil => rfl
      | cons b more => exact absurd (List.append_eq_nil_iff.mp h.symm).1 (keptByte_ne_nil b)
  | cons b rest ih =>
      cases other with
      | nil => exact absurd (List.append_eq_nil_iff.mp h).1 (keptByte_ne_nil b)
      | cons b' more =>
          rw [List.flatMap_cons, List.flatMap_cons] at h
          obtain ⟨rfl, hRest⟩ := keptByte_append_inj h
          rw [ih hRest]

/-- All bytes of a character beyond ASCII are beyond ASCII. -/
theorem le_of_mem_utf8EncodeChar {c : Char} (hc : 0x80 ≤ c.toNat) {b : UInt8}
    (hb : b ∈ String.utf8EncodeChar c) : 0x80 ≤ b.toNat := by
  have hValue : c.val.toNat = c.toNat := rfl
  simp only [String.utf8EncodeChar, hValue] at hb
  rw [if_neg (by omega)] at hb
  split at hb
  · simp only [List.mem_cons, List.not_mem_nil, or_false] at hb
    rcases hb with rfl | rfl <;> simp only [UInt8.toNat_ofNat'] <;> omega
  · split at hb
    · simp only [List.mem_cons, List.not_mem_nil, or_false] at hb
      rcases hb with rfl | rfl | rfl <;> simp only [UInt8.toNat_ofNat'] <;> omega
    · simp only [List.mem_cons, List.not_mem_nil, or_false] at hb
      rcases hb with rfl | rfl | rfl | rfl <;> simp only [UInt8.toNat_ofNat'] <;> omega

/-- A character is kept byte by byte. -/
theorem encodedChar_eq (c : Char) : encodedChar c = (String.utf8EncodeChar c).flatMap keptByte := by
  by_cases hc : c.toNat < 0x80
  · have hByte : (UInt8.ofNat c.toNat).toNat = c.toNat := by
      rw [UInt8.toNat_ofNat']
      omega
    rw [encodedChar, Text.utf8EncodeChar_of_ascii hc, List.flatMap_singleton, List.flatMap_singleton, keptByte,
      hByte, Char.ofNat_toNat]
    cases hEncoded : isEncoded c with
    | false => rw [if_pos (by simp [hc]), if_pos ⟨hc, rfl⟩]
    | true => rw [if_neg (by simp), if_neg (by simp)]
  · have hKept : ∀ b ∈ String.utf8EncodeChar c, encodedByte b = keptByte b := by
      intro b hb
      have hHigh := le_of_mem_utf8EncodeChar (Nat.le_of_not_lt hc) hb
      rw [keptByte, if_neg fun hLow => Nat.not_lt.mpr hHigh hLow.1]
    rw [encodedChar, if_neg (by simp [hc])]
    exact List.flatMap_congr hKept

/-- Encoding loses nothing. -/
theorem flatMap_encodedChar_injective :
    Function.Injective fun cs : List Char => cs.flatMap encodedChar := by
  intro cs other h
  have hBytes (cs : List Char) : cs.flatMap encodedChar = (Text.bytes (String.ofList cs)).flatMap keptByte := by
    rw [Text.bytes_ofList, List.flatMap_assoc]
    exact congrArg (List.flatMap · cs) (funext encodedChar_eq)
  dsimp only at h
  rw [hBytes, hBytes] at h
  exact String.ofList_injective (Text.bytes_inj.mp (flatMap_keptByte_injective h))

/-! ### Segments -/

theorem slash_not_mem_segments {cs : List Char} : ∀ segment ∈ segments cs, '/' ∉ segment := by
  induction cs with
  | nil => simp [segments]
  | cons c rest ih =>
      rw [segments]
      split
      · intro segment hMem
        rcases List.mem_cons.mp hMem with rfl | hMem
        · exact List.not_mem_nil
        · exact ih segment hMem
      · next hOther =>
        cases hSegments : segments rest with
        | nil => exact absurd hSegments (segments_ne_nil rest)
        | cons first others =>
            rw [hSegments] at ih
            intro segment hMem
            rcases List.mem_cons.mp hMem with rfl | hMem
            · intro hSlash
              rcases List.mem_cons.mp hSlash with hSame | hSlash
              · exact hOther hSame.symm
              · exact ih first List.mem_cons_self hSlash
            · exact ih segment (List.mem_cons_of_mem _ hMem)

theorem slash_not_mem_encodedChar {c : Char} (hc : c ≠ '/') : '/' ∉ encodedChar c := by
  have hDigit : ∀ n < 16, '/' ≠ n.digitChar.toUpper := by decide
  rw [encodedChar]
  split
  · exact fun hMem => hc (List.mem_singleton.mp hMem).symm
  · intro hMem
    obtain ⟨b, -, hMem⟩ := List.mem_flatMap.mp hMem
    have hBound := b.toNat_lt
    simp only [encodedByte, List.mem_cons, List.not_mem_nil, or_false] at hMem
    rcases hMem with hSame | hSame | hSame
    · exact absurd hSame (by decide)
    · exact hDigit _ (by omega) hSame
    · exact hDigit _ (by omega) hSame

/-- A store keeps an object under segments without slashes. -/
theorem slash_not_mem_keySegments {path : String} : ∀ segment ∈ keySegments path, '/' ∉ segment := by
  intro segment hMem hSlash
  obtain ⟨plain, hPlain, rfl⟩ := List.mem_map.mp hMem
  obtain ⟨c, hc, hSlash⟩ := List.mem_flatMap.mp hSlash
  refine slash_not_mem_encodedChar ?_ hSlash
  rintro rfl
  exact slash_not_mem_segments plain (List.mem_filter.mp hPlain).1 hc

/-- Segments without slashes can be read off what they were joined to. -/
theorem segments_joinSegments {list : List (List Char)} (hNonempty : list ≠ [])
    (h : ∀ segment ∈ list, '/' ∉ segment) : segments (joinSegments list) = list := by
  induction list with
  | nil => exact absurd rfl hNonempty
  | cons first others ih =>
      cases others with
      | nil => exact segments_of_not_mem (h first List.mem_cons_self)
      | cons second rest =>
          rw [joinSegments, segments_append (h first List.mem_cons_self),
            ih (List.cons_ne_nil _ _) fun segment hMem => h segment (List.mem_cons_of_mem _ hMem)]
          exact List.cons_ne_nil _ _

/-- Paths with one key have the same segments, apart from empty ones. -/
theorem segments_eq_of_key {path other : String} (hPath : keySegments path ≠ [])
    (hOther : keySegments other ≠ []) (h : key path = key other) :
    (segments path.toList).filter (!·.isEmpty) = (segments other.toList).filter (!·.isEmpty) := by
  have hJoined : segments (joinSegments (keySegments path)) = segments (joinSegments (keySegments other)) :=
    congrArg segments (String.ofList_injective h)
  rw [segments_joinSegments hPath slash_not_mem_keySegments,
    segments_joinSegments hOther slash_not_mem_keySegments] at hJoined
  exact flatMap_encodedChar_injective.list_map hJoined

end SnapshotCatalog.Path

namespace SnapshotCatalog

/-- A path without empty segments. -/
def Path.Tidy (path : String) : Prop := ∀ segment ∈ segments path.toList, segment ≠ []

instance (path : String) : Decidable (Path.Tidy path) :=
  inferInstanceAs (Decidable (∀ segment ∈ Path.segments path.toList, segment ≠ []))

theorem CatalogPath.tidy {path : String} (h : CatalogPath path) : Path.Tidy path := h.shape.ne_nil

namespace Site

variable (site : Site) {path other : String}

/-- The segments of a key of a lakehouse that are not empty: some of its directory, and all of the
path. -/
theorem filter_segments_resolve (h : Path.Tidy path) :
    (Path.segments (site.resolve path).toList).filter (!·.isEmpty) =
      site.segments.filter (!·.isEmpty) ++ Path.segments path.toList := by
  rw [segments_resolve, List.filter_append]
  congr 1
  rw [List.filter_eq_self]
  intro segment hMem
  simpa using h segment hMem

theorem keySegments_resolve_ne_nil (h : Path.Tidy path) : Path.keySegments (site.resolve path) ≠ [] := by
  intro hNil
  rw [Path.keySegments, List.map_eq_nil_iff, site.filter_segments_resolve h,
    List.append_eq_nil_iff] at hNil
  exact Path.segments_ne_nil _ hNil.2

/-- Paths without empty segments stay apart when their keys are normalised. -/
theorem eq_of_key_resolve (h : Path.Tidy path) (hOther : Path.Tidy other)
    (hSame : Path.key (site.resolve path) = Path.key (site.resolve other)) : path = other := by
  have hSegments := Path.segments_eq_of_key (site.keySegments_resolve_ne_nil h)
    (site.keySegments_resolve_ne_nil hOther) hSame
  rw [site.filter_segments_resolve h, site.filter_segments_resolve hOther,
    List.append_cancel_left_eq] at hSegments
  have hLists := congrArg Path.joinSegments hSegments
  rw [Path.joinSegments_segments, Path.joinSegments_segments, String.toList_inj] at hLists
  exact hLists

/-- The keys of a lakehouse stay apart when they are normalised. -/
theorem Owns.eq_of_key {site : Site} {key other : String} (h : site.Owns key) (hOther : site.Owns other)
    (hSame : Path.key key = Path.key other) : key = other := by
  obtain ⟨path, hPath, rfl⟩ := h
  obtain ⟨path', hPath', rfl⟩ := hOther
  rw [site.eq_of_key_resolve hPath.tidy hPath'.tidy hSame]

end Site

end SnapshotCatalog
