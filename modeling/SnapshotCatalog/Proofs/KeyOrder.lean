import SnapshotCatalog.Proofs.KeyCodec
/-!
The order of keys is the order of names. The fields of keys have fixed sizes and are padded with a byte
that comes before all bytes of names, so where two keys part tells where their names part: in the mark,
in the first name, or in the second when the first ones are the same. The last case needs the first
field of both keys to end at one place, which is where fixed sizes come in.
-/
namespace SnapshotCatalog

/-- What is appended to two lists of one length does not change which comes first. -/
theorem append_lt_append_of_length {front other back rest : List UInt8} (h : front < other)
    (hLength : front.length = other.length) : front ++ back < other ++ rest := by
  induction front generalizing other with
  | nil =>
      obtain rfl := List.length_eq_zero_iff.mp hLength.symm
      exact absurd h (List.lt_irrefl _)
  | cons a front ih =>
      cases other with
      | nil => cases hLength
      | cons b other =>
          rw [List.cons_append, List.cons_append, List.cons_lt_cons_iff]
          rcases List.cons_lt_cons_iff.mp h with hLess | ⟨hSame, hRest⟩
          · exact .inl hLess
          · exact .inr ⟨hSame, ih hRest (Nat.succ.inj hLength)⟩

theorem Text.before_trichotomy (s t : String) : Before s t ∨ s = t ∨ Before t s := by
  by_cases hLeft : Before s t
  · exact .inl hLeft
  · by_cases hRight : Before t s
    · exact .inr (.inr hRight)
    · exact .inr (.inl (eq_of_not_before hLeft hRight))

theorem Text.before_append_of_size {front other : String} (h : Before front other)
    (hSize : front.utf8ByteSize = other.utf8ByteSize) (back rest : String) :
    Before (front ++ back) (other ++ rest) := by
  unfold Before at h ⊢
  rw [bytes_append, bytes_append]
  exact append_lt_append_of_length h hSize

namespace Slot

/-- The order of objects by their names: namespaces come before tables, namespaces by their names, and
tables by the names of their namespaces and then by their own. -/
def Precedes : Slot → Slot → Prop
  | .ofNamespace ns, .ofNamespace other => Text.Before ns other
  | .ofNamespace _, .ofTable _ _ => True
  | .ofTable _ _, .ofNamespace _ => False
  | .ofTable ns table, .ofTable other table' =>
    Text.Before ns other ∨ ns = other ∧ Text.Before table table'

instance : DecidableRel Precedes
  | .ofNamespace ns, .ofNamespace other => inferInstanceAs (Decidable (Text.Before ns other))
  | .ofNamespace _, .ofTable _ _ => .isTrue trivial
  | .ofTable _ _, .ofNamespace _ => .isFalse id
  | .ofTable ns table, .ofTable other table' =>
    inferInstanceAs (Decidable (Text.Before ns other ∨ ns = other ∧ Text.Before table table'))

variable {limits : KeyLimits} {slot slot' : Slot} {ns other table table' : String}

theorem precedes_trichotomy (slot slot' : Slot) :
    slot.Precedes slot' ∨ slot = slot' ∨ slot'.Precedes slot := by
  cases slot with
  | ofNamespace ns =>
      cases slot' with
      | ofNamespace other =>
          exact (Text.before_trichotomy ns other).imp_right fun h => h.imp_left (congrArg ofNamespace)
      | ofTable other table' => exact .inl trivial
  | ofTable ns table =>
      cases slot' with
      | ofNamespace other => exact .inr (.inr trivial)
      | ofTable other table' =>
          rcases Text.before_trichotomy ns other with hLess | rfl | hMore
          · exact .inl (.inl hLess)
          · rcases Text.before_trichotomy table table' with hLess | rfl | hMore
            · exact .inl (.inr ⟨rfl, hLess⟩)
            · exact .inr (.inl rfl)
            · exact .inr (.inr (.inr ⟨rfl, hMore⟩))
          · exact .inr (.inr (.inl hMore))

/-- The keys of namespaces come before all keys of tables, by their marks alone. -/
theorem before_key_of_kind :
    Text.Before ((ofNamespace ns).key limits) ((ofTable other table).key limits) := by
  have hMarks : Text.Before Key.namespaceMark Key.tableMark := by decide
  rw [key, key, Key.tableFront, String.append_assoc]
  exact Text.before_append_of_size hMarks rfl _ _

/-- Tables of different namespaces are in the order of the namespaces, whatever their own names. -/
theorem before_key_of_tableFront (h : Name.Accepted limits.ns ns)
    (hOther : Name.Accepted limits.ns other) (hBefore : Text.Before ns other) :
    Text.Before ((ofTable ns table).key limits) ((ofTable other table').key limits) := by
  have hFront : Text.Before (Key.tableFront limits ns) (Key.tableFront limits other) :=
    Text.before_append_left _ (h.before_padded hOther hBefore)
  exact Text.before_append_of_size hFront
    ((Key.utf8ByteSize_tableFront h).trans (Key.utf8ByteSize_tableFront hOther).symm) _ _

theorem before_key_of_precedes (h : slot.Accepted limits) (h' : slot'.Accepted limits)
    (hPrecedes : slot.Precedes slot') : Text.Before (slot.key limits) (slot'.key limits) := by
  cases slot with
  | ofNamespace ns =>
      cases slot' with
      | ofNamespace other => exact before_key_ofNamespace h h' hPrecedes
      | ofTable other table => exact before_key_of_kind
  | ofTable ns table =>
      cases slot' with
      | ofNamespace other => exact hPrecedes.elim
      | ofTable other table' =>
          rcases hPrecedes with hBefore | ⟨rfl, hBefore⟩
          · exact before_key_of_tableFront h.1 h'.1 hBefore
          · exact before_key_ofTable h h' hBefore

/-- One key comes before another exactly when its object does. The order of objects is total, so an
object that does not come first is the other one or comes after it, and so is its key. -/
theorem before_key_iff (h : slot.Accepted limits) (h' : slot'.Accepted limits) :
    Text.Before (slot.key limits) (slot'.key limits) ↔ slot.Precedes slot' := by
  refine ⟨fun hBefore => ?_, before_key_of_precedes h h'⟩
  rcases precedes_trichotomy slot slot' with hPrecedes | rfl | hFollows
  · exact hPrecedes
  · exact absurd hBefore (Text.Before.irrefl _)
  · exact absurd (before_key_of_precedes h' h hFollows) hBefore.asymm

/-- The keys that begin as those of the tables of a namespace are the keys of its tables. -/
theorem startsWith_key_iff (h : slot.Accepted limits) (hOther : Name.Accepted limits.ns other) :
    Text.startsWith (slot.key limits) (Key.tableFront limits other) = true ↔
      ∃ table, slot = .ofTable other table := by
  cases slot with
  | ofNamespace ns =>
      refine ⟨fun hStarts => absurd hStarts not_startsWith_key_ofNamespace, ?_⟩
      rintro ⟨table, hSlot⟩
      cases hSlot
  | ofTable ns table =>
      rw [startsWith_key_ofTable h.1 hOther]
      constructor
      · rintro rfl
        exact ⟨table, rfl⟩
      · rintro ⟨table', hSlot⟩
        exact (Slot.ofTable.inj hSlot).1

end Slot

/-- Byte order of keys is order of names. Objects whose names are accepted have keys; one of these keys
comes before another exactly when its object does, namespaces before tables and each by their names;
and the keys that begin as the table keys of an accepted namespace are those of its tables. -/
theorem Key.order_of_names (limits : KeyLimits) :
    (∀ slot : Slot, slot.Checked limits → ∃ key, slot.encode limits = .ok key) ∧
      (∀ (slot slot' : Slot) (key key' : String),
        slot.encode limits = .ok key → slot'.encode limits = .ok key' →
          (Text.Before key key' ↔ slot.Precedes slot')) ∧
      ∀ ns : String, Name.check "namespace" ns limits.ns = .ok () →
        ∃ start, tableStart limits ns = .ok start ∧
          ∀ (slot : Slot) (key : String), slot.encode limits = .ok key →
            (Text.startsWith key start = true ↔ ∃ table, slot = .ofTable ns table) := by
  refine ⟨fun slot hChecked => ?_, fun slot slot' key key' hKey hKey' => ?_, fun ns hChecked => ?_⟩
  · exact ⟨slot.key limits, Slot.encode_eq_ok_iff.mpr ⟨Slot.checked_iff.mp hChecked, rfl⟩⟩
  · obtain ⟨hAccepted, rfl⟩ := Slot.encode_eq_ok_iff.mp hKey
    obtain ⟨hAccepted', rfl⟩ := Slot.encode_eq_ok_iff.mp hKey'
    exact Slot.before_key_iff hAccepted hAccepted'
  · refine ⟨tableFront limits ns, by rw [tableStart_eq, hChecked]; rfl, fun slot key hKey => ?_⟩
    obtain ⟨hAccepted, rfl⟩ := Slot.encode_eq_ok_iff.mp hKey
    exact Slot.startsWith_key_iff hAccepted (Name.check_eq_ok_iff.mp hChecked)

/-- One first name is a proper beginning of the other, which fills its field with a character of two
bytes. The shorter one comes first whatever the second names are, and its tables are told from those of
the longer one. -/
theorem Key.order_of_names_filled :
    (Slot.ofTable "a" "z").encode ⟨3, 1⟩ = .ok "C===a  z" ∧
      (Slot.ofTable "aé" "b").encode ⟨3, 1⟩ = .ok "C===aéb" ∧
      Text.Before "C===a  z" "C===aéb" ∧
      ∃ start, tableStart ⟨3, 1⟩ "a" = .ok start ∧ Text.startsWith "C===a  z" start = true ∧
        ¬ Text.startsWith "C===aéb" start = true := by
  obtain ⟨-, hOrder, hStarts⟩ := order_of_names ⟨3, 1⟩
  have hShort : (Slot.ofTable "a" "z").encode ⟨3, 1⟩ = .ok "C===a  z" :=
    Slot.encode_eq_ok_iff.mpr ⟨Slot.checked_iff.mp ⟨rfl, rfl⟩, by decide⟩
  have hLong : (Slot.ofTable "aé" "b").encode ⟨3, 1⟩ = .ok "C===aéb" :=
    Slot.encode_eq_ok_iff.mpr ⟨Slot.checked_iff.mp ⟨rfl, rfl⟩, by decide⟩
  obtain ⟨start, hStart, hTables⟩ := hStarts "a" rfl
  refine ⟨hShort, hLong, (hOrder _ _ _ _ hShort hLong).mpr (by decide), start, hStart,
    (hTables _ _ hShort).mpr ⟨"z", rfl⟩, fun hOther => ?_⟩
  obtain ⟨table, hSlot⟩ := (hTables _ _ hLong).mp hOther
  exact absurd (Slot.ofTable.inj hSlot).1 (by decide)

end SnapshotCatalog
