import SnapshotCatalog.Proofs.Names
/-!
The objects of the catalog and their keys. A key determines its object, the tables of a namespace are
those whose keys begin as its table keys do, and byte order of keys is order of names.
-/
namespace SnapshotCatalog

/-- An object of the catalog: a namespace, or a table in a namespace. -/
inductive Slot where
  | ofNamespace (ns : String)
  | ofTable (ns table : String)
  deriving DecidableEq

/-- How the keys of the tables of a namespace begin, whatever its name. -/
def Key.tableFront (limits : KeyLimits) (ns : String) : String :=
  tableMark ++ padded ns limits.ns

namespace Slot

/-- The key of an object, whatever its names. -/
def key (limits : KeyLimits) : Slot → String
  | .ofNamespace ns => Key.namespaceMark ++ Key.padded ns limits.ns
  | .ofTable ns table => Key.tableFront limits ns ++ Key.padded table limits.table

/-- The names of an object are accepted. -/
def Accepted (limits : KeyLimits) : Slot → Prop
  | .ofNamespace ns => Name.Accepted limits.ns ns
  | .ofTable ns table => Name.Accepted limits.ns ns ∧ Name.Accepted limits.table table

end Slot

namespace Key

variable {limits : KeyLimits} {ns other table : String}

theorem ofNamespace_eq (limits : KeyLimits) (ns : String) :
    ofNamespace limits ns =
      (Name.check "namespace" ns limits.ns).map fun _ => (Slot.ofNamespace ns).key limits := by
  rw [ofNamespace]
  cases Name.check "namespace" ns limits.ns <;> rfl

theorem tableStart_eq (limits : KeyLimits) (ns : String) :
    tableStart limits ns =
      (Name.check "namespace" ns limits.ns).map fun _ => tableFront limits ns := by
  rw [tableStart]
  cases Name.check "namespace" ns limits.ns <;> rfl

theorem ofTable_eq (limits : KeyLimits) (ns table : String) :
    ofTable limits ns table = (Name.check "namespace" ns limits.ns).bind fun _ =>
      (Name.check "table" table limits.table).map fun _ => (Slot.ofTable ns table).key limits := by
  rw [ofTable, tableStart]
  cases Name.check "namespace" ns limits.ns with
  | error e => rfl
  | ok value => cases Name.check "table" table limits.table <;> rfl

theorem utf8ByteSize_padded {limit : Nat} {name : String} (h : Name.Accepted limit name) :
    (padded name limit).utf8ByteSize = limit := by
  rw [← Text.length_bytes]
  exact h.length_padded

theorem utf8ByteSize_tableFront (h : Name.Accepted limits.ns ns) :
    (tableFront limits ns).utf8ByteSize = markSize + limits.ns := by
  rw [tableFront, String.utf8ByteSize_append, utf8ByteSize_padded h]
  rfl

theorem tableFront_injective (h : Name.Accepted limits.ns ns)
    (hOther : Name.Accepted limits.ns other)
    (hSame : tableFront limits ns = tableFront limits other) : ns = other :=
  h.padded_injective hOther ((String.append_right_inj _).mp hSame)

end Key

namespace Slot

variable {limits : KeyLimits} {ns other table table' : String} {slot slot' : Slot}

theorem startsWith_key_ofTable (h : Name.Accepted limits.ns ns)
    (hOther : Name.Accepted limits.ns other) :
    Text.startsWith ((ofTable ns table).key limits) (Key.tableFront limits other) = true ↔
      ns = other := by
  have hSize : (Key.tableFront limits ns).utf8ByteSize =
      (Key.tableFront limits other).utf8ByteSize :=
    (Key.utf8ByteSize_tableFront h).trans (Key.utf8ByteSize_tableFront hOther).symm
  rw [key, Text.startsWith_append_of_size hSize]
  constructor
  · exact Key.tableFront_injective h hOther
  · rintro rfl
    rfl

/-- The key of a namespace begins as no key of a table does. -/
theorem not_startsWith_key_ofNamespace :
    ¬ Text.startsWith ((ofNamespace ns).key limits) (Key.tableFront limits other) = true := by
  intro h
  have hMark : Text.startsWith (Key.namespaceMark ++ Key.padded ns limits.ns) Key.tableMark =
      true :=
    Text.startsWith_of_append h
  have hSize : Key.namespaceMark.utf8ByteSize = Key.tableMark.utf8ByteSize := rfl
  exact absurd ((Text.startsWith_append_of_size hSize).mp hMark) (by decide)

/-- The key of a table begins as no key of a namespace does. -/
theorem not_startsWith_key_ofTable :
    ¬ Text.startsWith ((ofTable ns table).key limits) Key.namespaceMark = true := by
  intro h
  rw [key, Key.tableFront, String.append_assoc] at h
  have hSize : Key.tableMark.utf8ByteSize = Key.namespaceMark.utf8ByteSize := rfl
  exact absurd ((Text.startsWith_append_of_size hSize).mp h) (by decide)

theorem startsWith_key_ofNamespace :
    Text.startsWith ((ofNamespace ns).key limits) Key.namespaceMark = true :=
  Text.startsWith_append _ _

/-- The key of an object determines the object. -/
theorem key_injective (h : slot.Accepted limits) (h' : slot'.Accepted limits)
    (hSame : slot.key limits = slot'.key limits) : slot = slot' := by
  cases slot with
  | ofNamespace ns =>
      cases slot' with
      | ofNamespace other =>
          rw [h.padded_injective h' ((String.append_right_inj _).mp hSame)]
      | ofTable other table =>
          exact absurd (hSame ▸ startsWith_key_ofNamespace) not_startsWith_key_ofTable
  | ofTable ns table =>
      cases slot' with
      | ofNamespace other =>
          exact absurd (hSame ▸ startsWith_key_ofNamespace) not_startsWith_key_ofTable
      | ofTable other table' =>
          have hStarts : Text.startsWith ((ofTable ns table).key limits)
              (Key.tableFront limits other) = true := by
            rw [hSame]
            exact Text.startsWith_append _ _
          obtain rfl : ns = other := (startsWith_key_ofTable h.1 h'.1).mp hStarts
          rw [h.2.padded_injective h'.2 ((String.append_right_inj _).mp hSame)]

theorem before_key_ofNamespace (h : (ofNamespace ns).Accepted limits)
    (hOther : (ofNamespace other).Accepted limits) (hBefore : Text.Before ns other) :
    Text.Before ((ofNamespace ns).key limits) ((ofNamespace other).key limits) :=
  Text.before_append_left _ (Name.Accepted.before_padded h hOther hBefore)

theorem before_key_ofTable (h : (ofTable ns table).Accepted limits)
    (hOther : (ofTable ns table').Accepted limits) (hBefore : Text.Before table table') :
    Text.Before ((ofTable ns table).key limits) ((ofTable ns table').key limits) :=
  Text.before_append_left _ (h.2.before_padded hOther.2 hBefore)

end Slot

namespace Key

variable {limits : KeyLimits} {ns table : String}

/-- What follows the front of a key, without its padding, is the name that was padded. -/
theorem component?_padded {limit width : Nat} {name front : String} (h : Name.Accepted limit name)
    (hFront : front.utf8ByteSize = width) :
    component? (front ++ padded name limit) width none = some name := by
  rw [component?, String.toList_append, ← hFront, Text.cutAtByte?_append]
  exact congrArg some (h.unpadded_padded limit)

/-- The key of a namespace tells its name. -/
theorem namespaceName_key (h : (Slot.ofNamespace ns).Accepted limits) :
    namespaceName limits ((Slot.ofNamespace ns).key limits) = .ok ns := by
  have hKind : isNamespaceKey limits ((Slot.ofNamespace ns).key limits) = true := by
    rw [isNamespaceKey, Slot.key, Text.startsWith_append, String.utf8ByteSize_append,
      utf8ByteSize_padded h]
    exact beq_self_eq_true _
  have hName : component? ((Slot.ofNamespace ns).key limits) markSize none = some ns :=
    component?_padded h rfl
  rw [namespaceName, hKind, if_pos rfl, hName]

/-- The key of a table tells its name. -/
theorem tableName_key (h : (Slot.ofTable ns table).Accepted limits) :
    tableName limits ((Slot.ofTable ns table).key limits) = .ok table := by
  have hSize := utf8ByteSize_tableFront h.1
  have hKind : isTableKey limits ((Slot.ofTable ns table).key limits) = true := by
    rw [isTableKey, Slot.key, String.utf8ByteSize_append, hSize, utf8ByteSize_padded h.2,
      tableFront, String.append_assoc, Text.startsWith_append]
    exact beq_self_eq_true _
  have hName : component? ((Slot.ofTable ns table).key limits) (markSize + limits.ns) none =
      some table :=
    component?_padded h.2 hSize
  rw [tableName, hKind, if_pos rfl, hName]

end Key

end SnapshotCatalog
