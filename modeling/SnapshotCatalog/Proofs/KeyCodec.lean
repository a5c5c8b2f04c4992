import SnapshotCatalog.Proofs.Catalog
/-!
Keys and names tell each other. What a key is read as depends on its mark, its size and, for the key
of a table, on whether a character lies across the place where its second name begins; of the keys
that can be read, those whose names are accepted are the keys that are made from these names, and
there are no others. Keys are cut at byte offsets here, so texts that end inside a character matter.
-/
namespace SnapshotCatalog

namespace Text

/-- A text can be cut at a byte offset: no character lies across it. -/
def Splits (s : String) (offset : Nat) : Prop :=
  ∃ front back, s = front ++ back ∧ front.utf8ByteSize = offset

theorem splits_append (front back : String) : Splits (front ++ back) front.utf8ByteSize :=
  ⟨front, back, rfl, rfl⟩

theorem utf8ByteSize_of_cutAtByte? {n : Nat} {cs front back : List Char}
    (h : cutAtByte? n cs = some (front, back)) : (String.ofList front).utf8ByteSize = n := by
  induction cs generalizing n front with
  | nil =>
      cases n with
      | zero => simp_all [cutAtByte?]
      | succ n => simp [cutAtByte?] at h
  | cons c cs ih =>
      cases n with
      | zero => simp_all [cutAtByte?]
      | succ n =>
          rw [cutAtByte?] at h
          split at h
          · obtain ⟨⟨front', back'⟩, hCut, hPair⟩ := Option.map_eq_some_iff.mp h
            obtain ⟨rfl, rfl⟩ := Prod.mk.inj hPair
            have hRest := ih hCut
            rw [utf8ByteSize_eq, String.toList_ofList] at hRest ⊢
            rw [List.flatMap_cons, List.length_append, hRest, String.length_utf8EncodeChar]
            omega
          · cases h

/-- There is no cut exactly where a character lies across the offset, or beyond the end. -/
theorem cutAtByte?_eq_none_iff {s : String} {offset : Nat} :
    cutAtByte? offset s.toList = none ↔ ¬ Splits s offset := by
  constructor
  · rintro hNone ⟨front, back, rfl, rfl⟩
    rw [String.toList_append, cutAtByte?_append] at hNone
    cases hNone
  · intro hSplits
    cases hCut : cutAtByte? offset s.toList with
    | none => rfl
    | some cut =>
        refine absurd ⟨String.ofList cut.1, String.ofList cut.2, ?_, utf8ByteSize_of_cutAtByte? hCut⟩
          hSplits
        rw [← String.toList_inj, eq_append_of_cutAtByte? hCut]
        simp

/-- What is dropped at the end of a text are copies of the character. -/
theorem exists_dropTrailing (c : Char) (cs : List Char) :
    ∃ n, cs = dropTrailing c cs ++ List.replicate n c := by
  have hTail : cs.reverse.takeWhile (· == c) =
      List.replicate (cs.reverse.takeWhile (· == c)).length c := by
    apply List.eq_replicate_of_mem
    intro d hd
    exact beq_iff_eq.mp (List.all_eq_true.mp List.all_takeWhile d hd)
  have hSplit : cs.reverse.takeWhile (· == c) ++ cs.reverse.dropWhile (· == c) = cs.reverse :=
    List.takeWhile_append_dropWhile
  rw [hTail] at hSplit
  exact ⟨_, by simpa [dropTrailing] using congrArg List.reverse hSplit.symm⟩

end Text

namespace Key

/-- A text that begins with a mark and has a size. -/
structure Shaped (mark : String) (size : Nat) (key : String) : Prop where
  starts : ∃ rest, key = mark ++ rest
  size : key.utf8ByteSize = size

/-- What the key of a namespace looks like. -/
def NamespaceShaped (limits : KeyLimits) (key : String) : Prop :=
  Shaped namespaceMark (markSize + limits.ns) key

/-- What the key of a table looks like. Its second name begins between two characters. -/
def TableShaped (limits : KeyLimits) (key : String) : Prop :=
  Shaped tableMark (markSize + limits.ns + limits.table) key ∧
    Text.Splits key (markSize + limits.ns)

/-- A reader of names takes the keys of a shape, and refuses all others. -/
def Decides (name : Except Error String) (refusal : ArgumentFault) (shape : Prop) : Prop :=
  (shape ∧ ∃ n, name = .ok n) ∨ (¬ shape ∧ name = .error (.invalidArgument refusal))

end Key

namespace Slot

/-- The key of an object, whose names are checked. -/
def encode (limits : KeyLimits) : Slot → Except Error String
  | .ofNamespace ns => Key.ofNamespace limits ns
  | .ofTable ns table => Key.ofTable limits ns table

/-- The names of an object pass the checks. -/
def Checked (limits : KeyLimits) : Slot → Prop
  | .ofNamespace ns => Name.check "namespace" ns limits.ns = .ok ()
  | .ofTable ns table =>
    Name.check "namespace" ns limits.ns = .ok () ∧ Name.check "table" table limits.table = .ok ()

/-- A key is read as that of an object. -/
def ReadFrom (limits : KeyLimits) (key : String) : Slot → Prop
  | .ofNamespace ns => Key.namespaceName limits key = .ok ns
  | .ofTable ns table =>
    Key.tableNamespace limits key = .ok ns ∧ Key.tableName limits key = .ok table

/-- What kind of key an object has. -/
def kind : Slot → Key.Kind
  | .ofNamespace _ => .ns
  | .ofTable _ _ => .table

variable {limits : KeyLimits} {slot : Slot} {key : String}

theorem checked_iff : slot.Checked limits ↔ slot.Accepted limits := by
  cases slot with
  | ofNamespace ns => exact Name.check_eq_ok_iff
  | ofTable ns table => exact and_congr Name.check_eq_ok_iff Name.check_eq_ok_iff

theorem encode_eq_ok_iff :
    slot.encode limits = .ok key ↔ slot.Accepted limits ∧ slot.key limits = key := by
  cases slot with
  | ofNamespace ns => exact Key.ofNamespace_eq_ok_iff
  | ofTable ns table => exact Key.ofTable_eq_ok_iff

end Slot

namespace Key

variable {limits : KeyLimits} {key field first second ns table : String}

/-! ### Shapes -/

theorem isNamespaceKey_iff : isNamespaceKey limits key = true ↔ NamespaceShaped limits key := by
  rw [isNamespaceKey, Bool.and_eq_true, Text.startsWith_iff_exists, beq_iff_eq]
  exact ⟨fun h => ⟨h.1, h.2⟩, fun h => ⟨h.starts, h.size⟩⟩

theorem isTableKey_iff : isTableKey limits key = true ↔
    Shaped tableMark (markSize + limits.ns + limits.table) key := by
  rw [isTableKey, Bool.and_eq_true, Text.startsWith_iff_exists, beq_iff_eq]
  exact ⟨fun h => ⟨h.1, h.2⟩, fun h => ⟨h.starts, h.size⟩⟩

/-- A key of a namespace is its mark and a field. -/
theorem namespaceShaped_iff : NamespaceShaped limits key ↔
    ∃ field, key = namespaceMark ++ field ∧ field.utf8ByteSize = limits.ns := by
  have hMark : namespaceMark.utf8ByteSize = markSize := rfl
  constructor
  · rintro ⟨⟨field, rfl⟩, hSize⟩
    rw [String.utf8ByteSize_append] at hSize
    exact ⟨field, rfl, by omega⟩
  · rintro ⟨field, rfl, hField⟩
    exact ⟨⟨field, rfl⟩, by rw [String.utf8ByteSize_append, hMark, hField]⟩

/-- A key of a table is its mark and two fields. -/
theorem tableShaped_iff : TableShaped limits key ↔
    ∃ first second, key = tableMark ++ first ++ second ∧ first.utf8ByteSize = limits.ns ∧
      second.utf8ByteSize = limits.table := by
  have hMark : tableMark.utf8ByteSize = markSize := rfl
  constructor
  · rintro ⟨⟨hStarts, hSize⟩, front, second, rfl, hFront⟩
    -- The mark ends before the cut, so what stands before the cut begins with it.
    obtain ⟨rest, hRest⟩ := Text.startsWith_iff.mp (Text.startsWith_iff_exists.mpr hStarts)
    rw [Text.bytes_append] at hRest
    have hBefore : Text.bytes tableMark <+: Text.bytes front := by
      apply List.prefix_of_prefix_length_le (List.prefix_append _ rest)
      · exact ⟨Text.bytes second, hRest.symm⟩
      · rw [Text.length_bytes, Text.length_bytes, hFront, hMark]
        omega
    obtain ⟨first, rfl⟩ := Text.startsWith_iff_exists.mp (Text.startsWith_iff.mpr hBefore)
    rw [String.utf8ByteSize_append] at hFront hSize
    rw [String.utf8ByteSize_append] at hSize
    exact ⟨first, second, rfl, by omega, by omega⟩
  · rintro ⟨first, second, rfl, hFirst, hSecond⟩
    have hFront : (tableMark ++ first).utf8ByteSize = markSize + limits.ns := by
      rw [String.utf8ByteSize_append, hMark, hFirst]
    refine ⟨⟨⟨first ++ second, String.append_assoc⟩, ?_⟩, hFront ▸ Text.splits_append _ _⟩
    rw [String.utf8ByteSize_append, hFront, hSecond]

/-! ### What a key is read as -/

/-- The field behind some text, without its padding. -/
theorem component?_append (front field : String) :
    component? (front ++ field) front.utf8ByteSize none = some (unpadded field.toList) := by
  rw [component?, String.toList_append, Text.cutAtByte?_append]

/-- The field between two texts, without its padding. -/
theorem component?_between (front field back : String) :
    component? (front ++ field ++ back) front.utf8ByteSize (some field.utf8ByteSize) =
      some (unpadded field.toList) := by
  rw [component?, String.append_assoc, String.toList_append, Text.cutAtByte?_append]
  dsimp only
  rw [String.toList_append, Text.cutAtByte?_append]
  rfl

theorem namespaceName_field (hField : field.utf8ByteSize = limits.ns) :
    namespaceName limits (namespaceMark ++ field) = .ok (unpadded field.toList) := by
  have hKind : isNamespaceKey limits (namespaceMark ++ field) = true :=
    isNamespaceKey_iff.mpr (namespaceShaped_iff.mpr ⟨field, rfl, hField⟩)
  have hName : component? (namespaceMark ++ field) markSize none = some (unpadded field.toList) :=
    component?_append namespaceMark field
  rw [namespaceName, hKind, if_pos rfl, hName]

theorem isTableKey_fields (hFirst : first.utf8ByteSize = limits.ns)
    (hSecond : second.utf8ByteSize = limits.table) :
    isTableKey limits (tableMark ++ first ++ second) = true :=
  isTableKey_iff.mpr (tableShaped_iff.mpr ⟨first, second, rfl, hFirst, hSecond⟩).1

theorem tableNamespace_fields (hFirst : first.utf8ByteSize = limits.ns)
    (hSecond : second.utf8ByteSize = limits.table) :
    tableNamespace limits (tableMark ++ first ++ second) = .ok (unpadded first.toList) := by
  have hName : component? (tableMark ++ first ++ second) markSize (some limits.ns) =
      some (unpadded first.toList) := by
    rw [← hFirst]
    exact component?_between tableMark first second
  rw [tableNamespace, isTableKey_fields hFirst hSecond, if_pos rfl, hName]

theorem tableName_fields (hFirst : first.utf8ByteSize = limits.ns)
    (hSecond : second.utf8ByteSize = limits.table) :
    tableName limits (tableMark ++ first ++ second) = .ok (unpadded second.toList) := by
  have hFront : (tableMark ++ first).utf8ByteSize = markSize + limits.ns := by
    rw [String.utf8ByteSize_append, hFirst]
    rfl
  have hName : component? (tableMark ++ first ++ second) (markSize + limits.ns) none =
      some (unpadded second.toList) := by
    rw [← hFront]
    exact component?_append _ _
  rw [tableName, isTableKey_fields hFirst hSecond, if_pos rfl, hName]

/-- Nothing is read from a key of a table in which the cut lies inside a character. -/
theorem component?_of_not_splits (hStarts : ∃ rest, key = tableMark ++ rest)
    (hSplits : ¬ Text.Splits key (markSize + limits.ns)) :
    component? key markSize (some limits.ns) = none ∧
      component? key (markSize + limits.ns) none = none := by
  constructor
  · obtain ⟨rest, rfl⟩ := hStarts
    have hMark : Text.cutAtByte? markSize (tableMark ++ rest).toList =
        some (tableMark.toList, rest.toList) := by
      rw [String.toList_append]
      exact Text.cutAtByte?_append tableMark rest
    have hRest : ¬ Text.Splits rest limits.ns := by
      rintro ⟨front, back, rfl, hFront⟩
      refine hSplits ⟨tableMark ++ front, back, String.append_assoc.symm, ?_⟩
      rw [String.utf8ByteSize_append, hFront]
      rfl
    rw [component?, hMark]
    dsimp only
    rw [Text.cutAtByte?_eq_none_iff.mpr hRest]
    rfl
  · rw [component?, Text.cutAtByte?_eq_none_iff.mpr hSplits]

theorem decides_namespaceName :
    Decides (namespaceName limits key) (.namespaceKey key) (NamespaceShaped limits key) := by
  by_cases hShape : NamespaceShaped limits key
  · obtain ⟨field, rfl, hField⟩ := namespaceShaped_iff.mp hShape
    exact .inl ⟨hShape, _, namespaceName_field hField⟩
  · have hKind : ¬ isNamespaceKey limits key = true := fun h => hShape (isNamespaceKey_iff.mp h)
    exact .inr ⟨hShape, by rw [namespaceName, if_neg hKind]⟩

/-- Both names of a key of a table are read, or neither of them is. -/
theorem refused_of_not_tableShaped (h : ¬ TableShaped limits key) :
    tableNamespace limits key = .error (.invalidArgument (.tableKey key)) ∧
      tableName limits key = .error (.invalidArgument (.tableKey key)) := by
  rw [tableNamespace, tableName]
  by_cases hKind : isTableKey limits key = true
  · have hShape := isTableKey_iff.mp hKind
    obtain ⟨hFirst, hSecond⟩ := component?_of_not_splits hShape.starts fun hSplits =>
      h ⟨hShape, hSplits⟩
    rw [if_pos hKind, if_pos hKind, hFirst, hSecond]
    exact ⟨rfl, rfl⟩
  · rw [if_neg hKind, if_neg hKind]
    exact ⟨rfl, rfl⟩

theorem decides_tableNamespace :
    Decides (tableNamespace limits key) (.tableKey key) (TableShaped limits key) := by
  by_cases hShape : TableShaped limits key
  · obtain ⟨first, second, rfl, hFirst, hSecond⟩ := tableShaped_iff.mp hShape
    exact .inl ⟨hShape, _, tableNamespace_fields hFirst hSecond⟩
  · exact .inr ⟨hShape, (refused_of_not_tableShaped hShape).1⟩

theorem decides_tableName :
    Decides (tableName limits key) (.tableKey key) (TableShaped limits key) := by
  by_cases hShape : TableShaped limits key
  · obtain ⟨first, second, rfl, hFirst, hSecond⟩ := tableShaped_iff.mp hShape
    exact .inl ⟨hShape, _, tableName_fields hFirst hSecond⟩
  · exact .inr ⟨hShape, (refused_of_not_tableShaped hShape).2⟩

/-- Only keys of the shape are read. -/
theorem Decides.shape {name : Except Error String} {refusal : ArgumentFault} {shape : Prop}
    (h : Decides name refusal shape) {n : String} (hName : name = .ok n) : shape := by
  rcases h with ⟨hShape, -⟩ | ⟨-, hRefused⟩
  · exact hShape
  · rw [hName] at hRefused
    cases hRefused

/-! ### There and back -/

/-- A field is what is left of it without its padding, padded again. -/
theorem padded_unpadded (field : String) :
    padded (unpadded field.toList) field.utf8ByteSize = field := by
  obtain ⟨n, hField⟩ := Text.exists_dropTrailing ' ' field.toList
  have hSplit : field = unpadded field.toList ++ String.ofList (List.replicate n ' ') := by
    rw [← String.toList_inj, String.toList_append, unpadded, String.toList_ofList,
      String.toList_ofList]
    exact hField
  have hSize : field.utf8ByteSize = (unpadded field.toList).utf8ByteSize + n := by
    conv => lhs; rw [hSplit]
    rw [String.utf8ByteSize_append, ← Text.length_bytes (String.ofList _), Text.bytes_spaces,
      List.length_replicate]
  rw [padded, hSize, Nat.add_sub_cancel_left]
  exact hSplit.symm

end Key

namespace Slot

open Key

variable {limits : KeyLimits} {slot : Slot} {key : String}

/-- The key of an object whose names are accepted is read as that of the object. -/
theorem readFrom_key (h : slot.Accepted limits) : slot.ReadFrom limits (slot.key limits) := by
  cases slot with
  | ofNamespace ns => exact namespaceName_key h
  | ofTable ns table =>
      refine ⟨?_, tableName_key h⟩
      rw [Slot.key, tableFront, tableNamespace_fields (utf8ByteSize_padded h.1) (utf8ByteSize_padded h.2),
        h.1.unpadded_padded]

/-- A key that is read as that of an object is the key of the object. -/
theorem key_of_readFrom (h : slot.ReadFrom limits key) : slot.key limits = key := by
  cases slot with
  | ofNamespace ns =>
      obtain ⟨field, rfl, hField⟩ := namespaceShaped_iff.mp (decides_namespaceName.shape h)
      have hName : unpadded field.toList = ns := Except.ok.inj ((namespaceName_field hField).symm.trans h)
      rw [Slot.key, ← hName, ← hField, padded_unpadded]
  | ofTable ns table =>
      obtain ⟨first, second, rfl, hFirst, hSecond⟩ :=
        tableShaped_iff.mp (decides_tableNamespace.shape h.1)
      have hName : unpadded first.toList = ns :=
        Except.ok.inj ((tableNamespace_fields hFirst hSecond).symm.trans h.1)
      have hTable : unpadded second.toList = table :=
        Except.ok.inj ((tableName_fields hFirst hSecond).symm.trans h.2)
      rw [Slot.key, tableFront, ← hName, ← hTable, ← hFirst, ← hSecond, padded_unpadded, padded_unpadded]

theorem kindOf_key (h : slot.Accepted limits) : kindOf limits (slot.key limits) = slot.kind := by
  cases slot with
  | ofNamespace ns =>
      have hKind : isNamespaceKey limits ((ofNamespace ns).key limits) = true :=
        isNamespaceKey_iff.mpr (decides_namespaceName.shape (readFrom_key h))
      rw [kindOf, if_pos hKind]
      rfl
  | ofTable ns table =>
      have hOther : ¬ isNamespaceKey limits ((ofTable ns table).key limits) = true := fun hKind =>
        not_startsWith_key_ofTable (Bool.and_eq_true_iff.mp hKind).1
      have hKind : isTableKey limits ((ofTable ns table).key limits) = true :=
        isTableKey_iff.mpr (decides_tableNamespace.shape (readFrom_key h).1).1
      rw [kindOf, if_neg hOther, if_pos hKind]
      rfl

end Slot

/-- Keys and objects with accepted names determine each other. An object has a key exactly when its
names are accepted, and it is the only key that is read as that of the object; the key tells the kind of
the object, and different objects have different keys. Whatever the text, reading a name from it takes
the texts of the right shape and refuses all others. -/
theorem Key.codec_bijective (limits : KeyLimits) :
    (∀ slot : Slot, slot.Checked limits ↔ ∃ key, slot.encode limits = .ok key) ∧
      (∀ (slot : Slot) (key : String),
        slot.encode limits = .ok key ↔ slot.ReadFrom limits key ∧ slot.Checked limits) ∧
      (∀ (slot : Slot) (key : String),
        slot.encode limits = .ok key → kindOf limits key = slot.kind) ∧
      (∀ (slot other : Slot) (key : String),
        slot.encode limits = .ok key → other.encode limits = .ok key → slot = other) ∧
      ∀ key : String,
        Decides (namespaceName limits key) (.namespaceKey key) (NamespaceShaped limits key) ∧
          Decides (tableNamespace limits key) (.tableKey key) (TableShaped limits key) ∧
          Decides (tableName limits key) (.tableKey key) (TableShaped limits key) := by
  refine ⟨fun slot => ?_, fun slot key => ?_, fun slot key hKey => ?_, fun slot other key hKey hOther => ?_,
    fun key => ⟨decides_namespaceName, decides_tableNamespace, decides_tableName⟩⟩
  · simp [Slot.checked_iff, Slot.encode_eq_ok_iff]
  · rw [Slot.encode_eq_ok_iff, Slot.checked_iff]
    constructor
    · rintro ⟨hAccepted, rfl⟩
      exact ⟨Slot.readFrom_key hAccepted, hAccepted⟩
    · rintro ⟨hRead, hAccepted⟩
      exact ⟨hAccepted, Slot.key_of_readFrom hRead⟩
  · obtain ⟨hAccepted, rfl⟩ := Slot.encode_eq_ok_iff.mp hKey
    exact Slot.kindOf_key hAccepted
  · obtain ⟨hAccepted, hSame⟩ := Slot.encode_eq_ok_iff.mp hKey
    obtain ⟨hOtherAccepted, rfl⟩ := Slot.encode_eq_ok_iff.mp hOther
    exact Slot.key_injective hAccepted hOtherAccepted hSame

/-- A name of two-byte characters is padded by its bytes. Under other limits a character lies where the
second name of a key would begin, and nothing is read from it. -/
theorem Key.codec_bijective_straddled :
    (Slot.ofTable "né" "t").encode ⟨4, 3⟩ = .ok "C===né t  " ∧
      (Slot.ofTable "né" "t").ReadFrom ⟨4, 3⟩ "C===né t  " ∧
      kindOf ⟨4, 3⟩ "C===né t  " = .table ∧
      tableName ⟨3, 4⟩ "C===abéabc" = .error (.invalidArgument (.tableKey "C===abéabc")) := by
  obtain ⟨-, hRead, hKind, -, -⟩ := codec_bijective ⟨4, 3⟩
  have hAccepted : (Slot.ofTable "né" "t").Accepted ⟨4, 3⟩ := Slot.checked_iff.mp ⟨rfl, rfl⟩
  have hKey : (Slot.ofTable "né" "t").encode ⟨4, 3⟩ = .ok "C===né t  " :=
    Slot.encode_eq_ok_iff.mpr ⟨hAccepted, by decide⟩
  have hStraddled : ¬ TableShaped ⟨3, 4⟩ "C===abéabc" := fun hShape =>
    Text.cutAtByte?_eq_none_iff.mp (by decide) hShape.2
  obtain ⟨-, -, -, -, hTexts⟩ := codec_bijective ⟨3, 4⟩
  refine ⟨hKey, ((hRead _ _).mp hKey).1, hKind _ _ hKey, ?_⟩
  rcases (hTexts "C===abéabc").2.2 with ⟨hShape, -⟩ | ⟨-, hRefused⟩
  · exact absurd hShape hStraddled
  · exact hRefused

end SnapshotCatalog
