import Mathlib.Algebra.Group.Nat.Defs
import SnapshotCatalog.Definition.Codec
import SnapshotCatalog.Proofs.TextMaps
/-!
Reading a definition gives back what was written. A reader takes exactly the bytes of one value from
the front of its input; a message is a series of fields, each of which takes one value of the
message to the next. The lengths in a message have 64 bits, which bounds what can be written.
-/
namespace SnapshotCatalog

namespace Wire

variable {α β : Type}

/-- The reader takes these bytes, and no more, from whatever input begins with them. -/
def Takes (reader : Reader α) (front : List UInt8) (value : α) : Prop :=
  ∀ rest, reader (front ++ rest) = .ok (value, rest)

theorem takes_pure (value : α) : Takes (pure value) [] value := fun _ => rfl

theorem Takes.bind {reader : Reader α} {next : α → Reader β} {front back : List UInt8} {middle : α}
    {value : β} (h : Takes reader front middle) (hNext : Takes (next middle) back value) :
    Takes (reader >>= next) (front ++ back) value := by
  intro rest
  rw [List.append_assoc]
  show Except.bind (reader (front ++ (back ++ rest))) _ = _
  rw [h]
  exact hNext rest

/-- What follows a reader without taking anything itself. -/
theorem Takes.andThen {reader : Reader α} {next : α → Reader β} {front : List UInt8} {middle : α}
    {value : β} (h : Takes reader front middle) (hNext : Takes (next middle) [] value) :
    Takes (reader >>= next) front value := by
  have hBoth := h.bind hNext
  rwa [List.append_nil] at hBoth

theorem Takes.map {reader : Reader α} {front : List UInt8} {value : α}
    (h : Takes reader front value) (f : α → β) :
    Takes (reader >>= fun value => pure (f value)) front (f value) :=
  h.andThen (takes_pure (f value))

theorem Takes.within {reader : Reader α} {front : List UInt8} {value : α}
    (h : Takes reader front value) (message field : String) :
    Takes (within message field reader) front value := by
  intro rest
  rw [Wire.within, h]

theorem takes_readVarint {n : Nat} (h : n < UInt64.size) : Takes readVarint (varint n) n := by
  intro rest
  rw [readVarint, readVarint?_varint h]

theorem takes_take (data : List UInt8) : Takes (take data.length) data data := by
  intro rest
  rw [take, if_neg (by simp), List.splitAt_eq]
  simp

theorem takes_expect (wireType : WireType) : Takes (expect wireType wireType) [] () := by
  rw [expect, if_pos rfl]
  exact takes_pure ()

theorem takes_readKey {tag : Nat} (hTag : 0 < tag) (hBound : tag < 2 ^ 28) (wireType : WireType) :
    Takes readKey (key tag wireType) ⟨tag, wireType⟩ := by
  have hCode : wireType.code < 8 := by cases wireType <;> decide
  have hRead : Takes readVarint (key tag wireType) (tag * 8 + wireType.code) :=
    takes_readVarint (by simp only [UInt64.size]; omega)
  have hType : WireType.ofCode? ((tag * 8 + wireType.code) % 8) = some wireType := by
    rw [show (tag * 8 + wireType.code) % 8 = wireType.code by omega]
    cases wireType <;> rfl
  have hBack : (tag * 8 + wireType.code) / 8 = tag := by omega
  apply hRead.andThen
  rw [if_neg (by simp only [UInt32.size]; omega), hType]
  simp only [hBack]
  rw [if_neg (by omega)]
  exact takes_pure _

theorem takes_readNumber {n : Nat} (h : n < UInt64.size) :
    Takes (readNumber .varint) (varint n) n :=
  (takes_expect .varint).bind (takes_readVarint h)

theorem takes_readText {s : String} (h : s.utf8ByteSize < UInt64.size) :
    Takes (readText .lengthDelimited) (delimited (Text.bytes s)) s := by
  apply (takes_expect .lengthDelimited).bind
  apply (takes_readVarint h).bind
  apply (takes_take (Text.bytes s)).andThen
  rw [Text.ofBytes?_bytes]
  exact takes_pure s

theorem length_varint_pos (n : Nat) : 0 < (varint n).length := by
  rw [varint]
  split <;> simp

/-- The payload of a text field is shorter than the field. -/
theorem utf8ByteSize_le_textField (tag : Nat) (s : String) :
    s.utf8ByteSize ≤ (textField tag s).length := by
  rw [textField]
  split
  · next h => simp [h]
  · simp only [delimited, List.length_append, Text.length_bytes]
    omega

/-- The bytes are a series of fields that take one value to another. -/
inductive Merges (merge : Key → α → Reader α) : α → List UInt8 → α → Prop
  | nil (value : α) : Merges merge value [] value
  | field {value middle last : α} {tag : Nat} {wireType : WireType} {payload data : List UInt8}
      (hTag : 0 < tag) (hBound : tag < 2 ^ 28)
      (h : Takes (merge ⟨tag, wireType⟩ value) payload middle) (hRest : Merges merge middle data last) :
      Merges merge value (key tag wireType ++ (payload ++ data)) last

namespace Merges

variable {merge : Key → α → Reader α} {value middle last : α} {data more : List UInt8}

theorem one {tag : Nat} {wireType : WireType} {payload : List UInt8} (hTag : 0 < tag)
    (hBound : tag < 2 ^ 28) (h : Takes (merge ⟨tag, wireType⟩ value) payload last) :
    Merges merge value (key tag wireType ++ payload) last := by
  have hField := field hTag hBound h (nil last)
  rwa [List.append_nil] at hField

theorem append (h : Merges merge value data middle) (hMore : Merges merge middle more last) :
    Merges merge value (data ++ more) last := by
  induction h with
  | nil value => exact hMore
  | field hTag hBound hTakes hRest ih =>
      rw [List.append_assoc, List.append_assoc]
      exact .field hTag hBound hTakes (ih hMore)

/-- A reader of fields stops where the series ends. Every field has a key of at least a byte, so the
rounds suffice. -/
theorem mergeFields_eq (h : Merges merge value data last) {rounds : Nat}
    (hRounds : data.length ≤ rounds) (rest : List UInt8) :
    mergeFields rest.length merge rounds value (data ++ rest) = .ok (last, rest) := by
  induction h generalizing rounds with
  | nil value =>
      cases rounds with
      | zero => rfl
      | succ rounds =>
          show (if rest.length ≤ rest.length then _ else _ : Reader α) rest = _
          rw [if_pos (Nat.le_refl _)]
          rfl
  | @field value middle last tag wireType payload data hTag hBound hTakes hRest ih =>
      have hKey : 0 < (key tag wireType).length := length_varint_pos _
      simp only [List.length_append] at hRounds
      cases rounds with
      | zero => omega
      | succ rounds =>
          have hMore : ¬ (key tag wireType ++ (payload ++ data) ++ rest).length ≤ rest.length := by
            simp only [List.length_append]
            omega
          show (if (key tag wireType ++ (payload ++ data) ++ rest).length ≤ rest.length then _
            else _ : Reader α) (key tag wireType ++ (payload ++ data) ++ rest) = _
          rw [if_neg hMore, List.append_assoc, List.append_assoc]
          show Except.bind (readKey (key tag wireType ++ (payload ++ (data ++ rest)))) _ = _
          rw [takes_readKey hTag hBound]
          show Except.bind (merge ⟨tag, wireType⟩ value (payload ++ (data ++ rest))) _ = _
          rw [hTakes]
          exact ih (by omega)

theorem takes_mergeNested {merge : (levels : Nat) → Key → α → Reader α} {levels : Nat}
    (h : Merges (merge levels) value data last) (hSize : data.length < UInt64.size) :
    Takes (mergeNested (levels + 1) merge value) (delimited data) last := by
  apply (takes_readVarint hSize).bind
  intro rest
  have hStop : (data ++ rest).length - data.length = rest.length := by simp
  show (if (data ++ rest).length < data.length then _ else _ : Reader α) (data ++ rest) = _
  rw [if_neg (by simp), hStop]
  show Except.bind (mergeFields rest.length (merge levels) _ value (data ++ rest)) _ = _
  rw [h.mergeFields_eq (by simp)]
  show (if rest.length = rest.length then _ else _ : Reader α) rest = _
  rw [if_pos rfl]
  rfl

theorem mergeAll_eq (h : Merges merge value data last) : mergeAll merge value data = .ok last := by
  have hFields := h.mergeFields_eq (Nat.le_refl _) []
  rw [List.append_nil, List.length_nil] at hFields
  show Except.map Prod.fst (mergeFields 0 merge data.length value data) = _
  rw [hFields]
  rfl

/-- A number that a field of the message takes over. -/
theorem of_numberField {tag n : Nat} {set : Nat → α} {message field : String} (hTag : 0 < tag)
    (hBound : tag < 2 ^ 28) (hSize : n < UInt64.size) (hZero : value = set 0)
    (hMerge : merge ⟨tag, .varint⟩ value =
      within message field do return set (← readNumber .varint)) :
    Merges merge value (numberField tag n) (set n) := by
  rw [numberField]
  split
  · next hn =>
    rw [hZero, hn]
    exact nil _
  · have hTakes := ((takes_readNumber hSize).map set).within message field
    exact one hTag hBound (hMerge ▸ hTakes)

/-- A text that a field of the message takes over. -/
theorem of_textField {tag : Nat} {s : String} {set : String → α} {message field : String}
    (hTag : 0 < tag) (hBound : tag < 2 ^ 28) (hSize : (textField tag s).length < UInt64.size)
    (hEmpty : value = set "")
    (hMerge : merge ⟨tag, .lengthDelimited⟩ value =
      within message field do return set (← readText .lengthDelimited)) :
    Merges merge value (textField tag s) (set s) := by
  have hText := utf8ByteSize_le_textField tag s
  rw [textField]
  split
  · next hs =>
    rw [hEmpty, hs]
    exact nil _
  · have hTakes := ((takes_readText (Nat.lt_of_le_of_lt hText hSize)).map set).within message field
    exact one hTag hBound (hMerge ▸ hTakes)

end Merges

theorem length_le_nestedField (tag : Nat) (payload : List UInt8) :
    payload.length ≤ (nestedField tag payload).length := by
  simp only [nestedField, delimited, List.length_append]
  omega

end Wire

open Wire

namespace Definition

variable {α : Type}

theorem takes_mergeProperty_name {name value : String} (levels : Nat)
    (hSize : name.utf8ByteSize < UInt64.size) :
    Takes (mergeProperty levels ⟨1, .lengthDelimited⟩ ("", value))
      (delimited (Text.bytes name)) (name, value) :=
  (takes_readText hSize).map fun name => (name, value)

theorem takes_mergeProperty_value {name value : String} (levels : Nat)
    (hSize : value.utf8ByteSize < UInt64.size) :
    Takes (mergeProperty levels ⟨2, .lengthDelimited⟩ (name, ""))
      (delimited (Text.bytes value)) (name, value) :=
  (takes_readText hSize).map fun value => (name, value)

theorem merges_property {name value : String} (levels : Nat)
    (hSize : (textField 1 name ++ textField 2 value).length < UInt64.size) :
    Merges (mergeProperty levels) ("", "") (textField 1 name ++ textField 2 value)
      (name, value) := by
  rw [List.length_append] at hSize
  have hName := utf8ByteSize_le_textField 1 name
  have hValue := utf8ByteSize_le_textField 2 value
  have hFirst : Merges (mergeProperty levels) ("", "") (textField 1 name) (name, "") := by
    rw [textField]
    split
    · next h => exact h ▸ .nil _
    · exact .one (by decide) (by decide) (takes_mergeProperty_name levels (by omega))
  have hSecond : Merges (mergeProperty levels) (name, "") (textField 2 value) (name, value) := by
    rw [textField]
    split
    · next h => exact h ▸ .nil _
    · exact .one (by decide) (by decide) (takes_mergeProperty_value levels (by omega))
  exact hFirst.append hSecond

theorem takes_mergeProperties {name value : String} (levels : Nat) (properties : TextMap String)
    (hSize : (textField 1 name ++ textField 2 value).length < UInt64.size) :
    Takes (mergeProperties (levels + 1) properties)
      (delimited (textField 1 name ++ textField 2 value)) (properties.insert name value) :=
  ((merges_property levels hSize).takes_mergeNested hSize).map fun entry =>
    properties.insert entry.1 entry.2

/-- Properties written in key order are merged into a message that has earlier ones only. -/
theorem merges_properties {merge : Key → α → Reader α} {tag : Nat} (hTag : 0 < tag)
    (hBound : tag < 2 ^ 28) (message : TextMap String → α)
    (hMerge : ∀ properties name value,
      (textField 1 name ++ textField 2 value).length < UInt64.size →
        Takes (merge ⟨tag, .lengthDelimited⟩ (message properties))
          (delimited (textField 1 name ++ textField 2 value))
          (message (properties.insert name value)))
    {entries : List (String × String)} {before all : TextMap String}
    (hAll : all.entries = before.entries ++ entries)
    (hSize : (entries.flatMap fun entry =>
      nestedField tag (textField 1 entry.1 ++ textField 2 entry.2)).length < UInt64.size) :
    Merges merge (message before)
      (entries.flatMap fun entry =>
        nestedField tag (textField 1 entry.1 ++ textField 2 entry.2)) (message all) := by
  induction entries generalizing before with
  | nil =>
      have hSame : all = before := TextMap.eq_of_entries (by simpa using hAll)
      rw [hSame]
      exact .nil _
  | cons entry rest ih =>
      obtain ⟨name, value⟩ := entry
      have hSorted := hAll ▸ all.sorted
      have hLast : ∀ entry ∈ before.entries, Text.Before entry.1 name := fun entry hMem =>
        (List.pairwise_append.mp hSorted).2.2 entry hMem (name, value) List.mem_cons_self
      have hNext : all.entries = (before.insert name value).entries ++ rest := by
        rw [TextMap.entries_insert_of_last hLast, hAll, List.append_assoc]
        rfl
      have hField := length_le_nestedField tag (textField 1 name ++ textField 2 value)
      rw [List.flatMap_cons, List.length_append] at hSize
      rw [List.flatMap_cons]
      dsimp only at hSize ⊢
      exact (Merges.one hTag hBound (hMerge before name value (by omega))).append
        (ih hNext (by omega))

end Definition

namespace LakehouseDef

theorem merges_encode (d : LakehouseDef) (h : d.encode.length < UInt64.size) :
    Merges (merge levels) blank d.encode d := by
  obtain ⟨namespaces, tables, files, nodes, properties⟩ := d
  simp only [encode, List.length_append] at h
  have hNamespaces : Merges (merge levels) blank (numberField 1 namespaces.toNat) _ :=
    .of_numberField (by decide) (by decide) (Nat.lt_trans namespaces.toNat_lt (by decide))
      rfl rfl
  have hTables : Merges (merge levels) blank (_ ++ numberField 2 tables.toNat) _ :=
    hNamespaces.append (.of_numberField (by decide) (by decide)
      (Nat.lt_trans tables.toNat_lt (by decide)) rfl rfl)
  have hFiles : Merges (merge levels) blank (_ ++ numberField 3 files.toNat) _ :=
    hTables.append (.of_numberField (by decide) (by decide)
      (Nat.lt_trans files.toNat_lt (by decide)) rfl rfl)
  have hLimits : Merges (merge levels) blank (_ ++ numberField 4 nodes.toNat) _ :=
    hFiles.append (.of_numberField (by decide) (by decide) nodes.toNat_lt rfl rfl)
  simp only [UInt32.ofNat_toNat, UInt64.ofNat_toNat] at hLimits
  have hProperties : Merges (merge levels) ⟨namespaces, tables, files, nodes, .empty⟩
      (Definition.propertyFields 5 properties) ⟨namespaces, tables, files, nodes, properties⟩ :=
    Definition.merges_properties (by decide) (by decide)
      (fun properties => (⟨namespaces, tables, files, nodes, properties⟩ : LakehouseDef))
      (fun properties name value hSize =>
        ((Definition.takes_mergeProperties 99 properties hSize).map _).within _ _)
      rfl (by
        simp only [Definition.propertyFields] at h
        omega)
  exact hLimits.append hProperties

/-- What was written reads back. -/
theorem decode_encode (d : LakehouseDef) (h : d.encode.length < UInt64.size) :
    Definition.decode d.encode = .ok d :=
  (merges_encode d h).mergeAll_eq

end LakehouseDef

namespace NamespaceDef

theorem merges_encode (d : NamespaceDef) (h : d.encode.length < UInt64.size) :
    Merges (merge levels) blank d.encode d :=
  Definition.merges_properties (by decide) (by decide) NamespaceDef.mk
    (fun properties name value hSize =>
      ((Definition.takes_mergeProperties 99 properties hSize).map _).within _ _)
    rfl h

theorem decode_encode (d : NamespaceDef) (h : d.encode.length < UInt64.size) :
    Definition.decode d.encode = .ok d :=
  (merges_encode d h).mergeAll_eq

end NamespaceDef

namespace Column

theorem merges_encode (c : Column) (levels : Nat) (h : c.encode.length < UInt64.size) :
    Merges (merge levels) blank c.encode c := by
  obtain ⟨name, dataType, nullable⟩ := c
  simp only [encode, List.length_append] at h
  have hName : Merges (merge levels) blank (textField 1 name) _ :=
    .of_textField (by decide) (by decide) (by omega) rfl rfl
  have hType : Merges (merge levels) blank (_ ++ textField 2 dataType) _ :=
    hName.append (.of_textField (by decide) (by decide) (by omega) rfl rfl)
  have hColumn : Merges (merge levels) blank (_ ++ numberField 3 nullable.toNat) _ :=
    hType.append (.of_numberField (by decide) (by decide)
      (Nat.lt_of_le_of_lt (Bool.toNat_le nullable) (by decide)) rfl rfl)
  cases nullable with
  | false => exact hColumn
  | true => exact hColumn

end Column

namespace TableDef

theorem merges_columns (columns before : List Column)
    (h : (columns.flatMap fun c => nestedField 1 c.encode).length < UInt64.size) :
    Merges (merge levels) ⟨before, .empty, ""⟩ (columns.flatMap fun c => nestedField 1 c.encode)
      ⟨before ++ columns, .empty, ""⟩ := by
  induction columns generalizing before with
  | nil =>
      rw [List.append_nil]
      exact .nil _
  | cons c rest ih =>
      have hField := length_le_nestedField 1 c.encode
      simp only [List.flatMap_cons, List.length_append] at h ⊢
      have hColumn : Takes (mergeNested levels Column.merge Column.blank) (delimited c.encode) c :=
        (Column.merges_encode c 99 (by omega)).takes_mergeNested (by omega)
      have hFirst : Merges (merge levels) ⟨before, .empty, ""⟩ (nestedField 1 c.encode)
          ⟨before ++ [c], .empty, ""⟩ :=
        .one (by decide) (by decide)
          (((takes_expect .lengthDelimited).bind (hColumn.map _)).within _ _)
      have hRest := ih (before ++ [c]) (by omega)
      rw [List.append_assoc, List.singleton_append] at hRest
      exact hFirst.append hRest

theorem merges_encode (d : TableDef) (h : d.encode.length < UInt64.size) :
    Merges (merge levels) blank d.encode d := by
  obtain ⟨columns, properties, location⟩ := d
  simp only [encode, List.length_append] at h
  have hColumns := merges_columns columns [] (by omega)
  have hProperties : Merges (merge levels) ⟨columns, .empty, ""⟩
      (Definition.propertyFields 2 properties) ⟨columns, properties, ""⟩ :=
    Definition.merges_properties (by decide) (by decide)
      (fun properties => (⟨columns, properties, ""⟩ : TableDef))
      (fun properties name value hSize =>
        ((Definition.takes_mergeProperties 99 properties hSize).map _).within _ _)
      rfl (by
        simp only [Definition.propertyFields] at h
        omega)
  have hLocation : Merges (merge levels) ⟨columns, properties, ""⟩ (textField 3 location) _ :=
    .of_textField (by decide) (by decide) (by omega) rfl rfl
  exact (hColumns.append hProperties).append hLocation

theorem decode_encode (d : TableDef) (h : d.encode.length < UInt64.size) :
    Definition.decode d.encode = .ok d :=
  (merges_encode d h).mergeAll_eq

end TableDef

end SnapshotCatalog
