import SnapshotCatalog.Proofs.Placement
import SnapshotCatalog.Proofs.ReturnedRoots
import SnapshotCatalog.Proofs.Refinement
/-!
Sizes of the names of definition files. Such a name holds the names of its object and 52 or 53 bytes besides
them, so how long it can get depends on the limits of names. A lakehouse also limits the names of files, but
nobody compares a name with that limit: it is kept where the limits of names leave room for the rest, and
where they do not there are objects whose files break it.
-/
namespace SnapshotCatalog

open Storage (Memory)
open Program Exchange

/-! ### Names of files -/

/-- The name of a file: the last segment of its path. -/
def Path.fileName (path : String) : String := String.ofList ((segments path.toList).getLastD [])

theorem Uuid.utf8ByteSize_text (id : Uuid) : id.text.utf8ByteSize = 36 := by
  have hAscii : ∀ c ∈ id.text.toList, c.toNat < 0x80 := fun _ =>
    forall_mem_text (p := fun c => c.toNat < 0x80) (by decide) (by decide)
  rw [Text.utf8ByteSize_of_ascii hAscii, id.length_text]

/-- The last segment of the path of a file is its name, after eight digits of the hash. -/
theorem DefinitionPath.utf8ByteSize_fileName {file : String} (h : '/' ∉ file.toList) :
    (Path.fileName (directories file ++ "-" ++ file)).utf8ByteSize = 9 + file.utf8ByteSize := by
  have hName : Path.fileName (directories file ++ "-" ++ file) =
      String.ofList ((hashBits file).drop 12) ++ ("-" ++ file) := by
    rw [Path.fileName, segments_eq h, ← String.toList_inj]
    simp
  have hDigits : ∀ c ∈ (String.ofList ((hashBits file).drop 12)).toList, c.toNat < 0x80 := by
    intro c hc
    rw [String.toList_ofList] at hc
    obtain ⟨i, -, rfl⟩ := List.mem_map.mp (List.mem_of_mem_drop hc)
    split <;> decide
  rw [hName, String.utf8ByteSize_append, String.utf8ByteSize_append, Text.utf8ByteSize_of_ascii hDigits,
    String.toList_ofList, List.length_drop, length_hashBits]
  show 8 + (1 + _) = _
  omega

namespace Slot

variable {limits : KeyLimits} {slot : Slot}

/-- The bytes that the names of an object bring to the name of its file. -/
def nameSize : Slot → Nat
  | ofNamespace ns => ns.utf8ByteSize
  | ofTable ns table => ns.utf8ByteSize + 1 + table.utf8ByteSize

theorem utf8ByteSize_front (slot : Slot) : slot.front.utf8ByteSize = slot.nameSize := by
  cases slot with
  | ofNamespace ns => rfl
  | ofTable ns table =>
      rw [front, String.utf8ByteSize_append, String.utf8ByteSize_append, nameSize, Nat.add_assoc]
      rfl

/-- Besides the names, the name of a file has eight digits, two dashes, an identifier and a suffix. -/
theorem Accepted.utf8ByteSize_fileName (h : slot.Accepted limits) (id : Uuid) :
    (Path.fileName (slot.path id)).utf8ByteSize = 52 + slot.nameSize := by
  have hSlash : '/' ∉ (slot.file id).toList := fun hc => absurd (h.file_allowed id _ hc) (by decide)
  have hSuffix : DefinitionPath.suffix.utf8ByteSize = 6 := rfl
  have hDash : "-".utf8ByteSize = 1 := rfl
  rw [slot.path_eq, DefinitionPath.utf8ByteSize_fileName hSlash, file, String.utf8ByteSize_append,
    String.utf8ByteSize_append, String.utf8ByteSize_append, id.utf8ByteSize_text, utf8ByteSize_front,
    hSuffix, hDash]
  omega

theorem Accepted.nameSize_le (h : slot.Accepted limits) :
    slot.nameSize ≤ limits.ns + 1 + limits.table := by
  cases slot with
  | ofNamespace ns => exact Nat.le_trans (Name.Accepted.size h) (by omega)
  | ofTable ns table =>
      have hNs := h.1.size
      have hTable := h.2.size
      rw [nameSize]
      omega

end Slot

/-- A name that is as long as it may be. -/
def Name.filling (limit : Nat) : String := String.ofList (List.replicate limit 'a')

theorem Name.eq_of_mem_filling {limit : Nat} {c : Char} (h : c ∈ (filling limit).toList) : c = 'a' := by
  rw [filling, String.toList_ofList] at h
  exact List.eq_of_mem_replicate h

theorem Name.utf8ByteSize_filling (limit : Nat) : (filling limit).utf8ByteSize = limit := by
  have hAscii : ∀ c ∈ (filling limit).toList, c.toNat < 0x80 := by
    intro c hc
    rw [eq_of_mem_filling hc]
    decide
  rw [Text.utf8ByteSize_of_ascii hAscii, filling, String.toList_ofList, List.length_replicate]

theorem Name.accepted_filling {limit : Nat} (h : 0 < limit) : Accepted limit (filling limit) where
  nonempty hEmpty := by
    have hSize := utf8ByteSize_filling limit
    rw [hEmpty] at hSize
    exact absurd hSize.symm (Nat.ne_of_gt h)
  size := Nat.le_of_eq (utf8ByteSize_filling limit)
  allowed c hc := by
    rw [eq_of_mem_filling hc]
    decide

/-- Nothing in such a name makes a path of it refused. -/
theorem Slot.check_path_filling {limits : KeyLimits} {slot : Slot} (h : slot.Accepted limits)
    (hNames : ∀ name ∈ slot.names, ∃ limit, name = Name.filling limit) (id : Uuid) :
    Path.check (slot.path id) = .ok () := by
  have hControl : ¬ slot.hasHighControl = true := by
    intro hHigh
    obtain ⟨name, hName, hHigh⟩ := List.any_eq_true.mp hHigh
    obtain ⟨limit, rfl⟩ := hNames name hName
    obtain ⟨c, hc, hHigh⟩ := List.any_eq_true.mp hHigh
    rw [Name.eq_of_mem_filling hc] at hHigh
    exact absurd hHigh (by decide)
  rw [check_path h, if_neg hControl]

/-! ### Limits -/

namespace LakehouseDef

/-- The limits of names leave room in the limit of file names for what stands between them. -/
def LeavesRoom (d : LakehouseDef) : Prop :=
  53 + d.namespaceNameMax.toNat + d.tableNameMax.toNat ≤ d.fileNameMax.toNat

instance (d : LakehouseDef) : Decidable d.LeavesRoom := inferInstanceAs (Decidable (_ ≤ _))

/-- A valid definition allows names. -/
theorem limits_pos {d : LakehouseDef} (h : d.zeroLimit? = none) :
    0 < d.namespaceNameMax.toNat ∧ 0 < d.tableNameMax.toNat := by
  have hAll : ∀ limit ∈ d.limits, ¬ (limit.2 == 0) = true :=
    List.find?_eq_none.mp (Option.map_eq_none_iff.mp h)
  have hNs := hAll _ List.mem_cons_self
  have hTable := hAll _ (List.mem_cons_of_mem _ List.mem_cons_self)
  rw [beq_iff_eq] at hNs hTable
  exact ⟨Nat.pos_of_ne_zero hNs, Nat.pos_of_ne_zero hTable⟩

/-- The largest names that a lakehouse accepts. -/
def fullest (d : LakehouseDef) : Slot :=
  .ofTable (Name.filling d.namespaceNameMax.toNat) (Name.filling d.tableNameMax.toNat)

theorem accepted_fullest {d : LakehouseDef} (h : d.zeroLimit? = none) :
    d.fullest.Accepted d.keyLimits :=
  ⟨Name.accepted_filling (limits_pos h).1, Name.accepted_filling (limits_pos h).2⟩

/-- The files of all objects that a lakehouse accepts keep its limit exactly if there is room for the
largest. -/
theorem leavesRoom_iff {d : LakehouseDef} (h : d.zeroLimit? = none) :
    d.LeavesRoom ↔ ∀ slot : Slot, slot.Accepted d.keyLimits → ∀ id,
      (Path.fileName (slot.path id)).utf8ByteSize ≤ d.fileNameMax.toNat := by
  rw [LeavesRoom]
  constructor
  · intro hRoom slot hAccepted id
    have hNames : slot.nameSize ≤ d.namespaceNameMax.toNat + 1 + d.tableNameMax.toNat :=
      hAccepted.nameSize_le
    rw [hAccepted.utf8ByteSize_fileName]
    omega
  · intro hAll
    have hFullest := hAll d.fullest (accepted_fullest h) ⟨0⟩
    rw [(accepted_fullest h).utf8ByteSize_fileName, fullest, Slot.nameSize, Name.utf8ByteSize_filling,
      Name.utf8ByteSize_filling] at hFullest
    omega

-- The usual limits leave no room: the name of a file can have 253 bytes, and 200 are allowed.
example : ¬ standard.LeavesRoom := by decide

end LakehouseDef

/-! ### Changes -/

/-- A change that succeeds and brings a definition stores that and changes nothing else. -/
theorem Change.alterations_of_ran {site : Site} {t after : Transaction} {c : Change} {data : List UInt8}
    {path : Uuid → String} {trace : List Exchange} (hDefinition : c.definition? = some (data, path))
    (h : (c.program site t).Ran trace (.ok after)) :
    ∃ id, alterations trace = [⟨site.resolve (path id), some (.bytes data)⟩] := by
  have hQuiet : (Lakehouse.look site t c.target).Asks Request.Quiet := by
    apply Lakehouse.asks_look
    exact rfl
  rcases ran_program hDefinition h with ⟨e, hNever, -⟩ | ⟨look, rest, row, rfl, hLook, hCourse⟩
  · cases hNever
  · rw [alterations_append, alterations_of_quiet (hLook.of_asks hQuiet), List.nil_append]
    generalize hEnd : Except.ok after = outcome at hCourse
    cases hCourse with
    | refused hCheck => cases hEnd
    | @answered id answer hCheck =>
        cases answer with
        | error e => cases hEnd
        | ok found =>
            cases found with
            | alreadyExists => cases hEnd
            | written => exact ⟨id, rfl⟩

namespace System

variable {site : Site} {s : System} {d : LakehouseDef}

/-- A lakehouse is created with a valid definition. -/
theorem Reachable.valid_of_created (hReach : Reachable site s)
    (hCreated : (s.published site)[0]? = some (0, .create d)) : d.zeroLimit? = none := by
  obtain ⟨published, hSound⟩ := hReach.sound
  obtain ⟨_, -, hGoverns⟩ := hSound.governs_of_created hCreated
  exact hGoverns.valid

/-- The names in a change that succeeded were accepted under the limits of the lakehouse. -/
theorem Reachable.accepted_of_call (hReach : Reachable site s)
    (hCreated : (s.published site)[0]? = some (0, .create d)) {call : EndedCall} (hCall : call ∈ s.calls)
    {h : Handle} {c : Change} (hChange : call.operation = .change h c) {t : Transaction}
    (hEnd : call.outcome = .ok (.transaction t)) : c.slot.Accepted d.keyLimits := by
  have hEvent : .ended call.client (.change h c) (.ok (.transaction t)) ∈ s.log :=
    (mem_ended_iff [] s.log).mpr ⟨call, hCall, rfl, hChange, hEnd⟩
  obtain ⟨drawn, -, d', key, hGoverns, hKey, -⟩ := hReach.traced.changes _ _ _ _ hEvent
  obtain ⟨other, past, hOrigin⟩ := hReach.origin (.running (hReach.attributed.log _ hEvent h rfl))
  obtain rfl := hGoverns.unique hOrigin.governs
  have hSame := hCreated.symm.trans hOrigin.created
  obtain rfl := Operation.create.inj (Prod.mk.inj (Option.some.inj hSame)).2
  exact (Change.accepted_of_key hKey).1

/-- A change that succeeded and brought a definition stored one object. The name of its file has the size
that the names of the object give it, and keeps the limit if there is room. -/
theorem Reachable.file_of_call (hReach : Reachable site s)
    (hCreated : (s.published site)[0]? = some (0, .create d)) {call : EndedCall} (hCall : call ∈ s.calls)
    {h : Handle} {c : Change} (hChange : call.operation = .change h c) {data : List UInt8}
    {path : Uuid → String} (hDefinition : c.definition? = some (data, path)) {reply : Reply}
    (hEnd : call.outcome = .ok reply) : ∃ id,
      alterations call.exchanges = [⟨site.resolve (path id), some (.bytes data)⟩] ∧
        (Path.fileName (path id)).utf8ByteSize = 52 + c.slot.nameSize ∧
        (d.LeavesRoom → (Path.fileName (path id)).utf8ByteSize ≤ d.fileNameMax.toNat) := by
  have hRan := (hReach.followed.calls call hCall).1
  rw [hChange] at hRan
  obtain ⟨result, hRan, hReply⟩ := hRan.of_replying
  cases result with
  | error e => cases hEnd.symm.trans hReply
  | ok t =>
      have hAccepted := hReach.accepted_of_call hCreated hCall hChange hReply
      obtain ⟨id, hAlterations⟩ := Change.alterations_of_ran hDefinition hRan
      obtain rfl := Change.path_of_definition hDefinition
      exact ⟨id, hAlterations, hAccepted.utf8ByteSize_fileName id, fun hRoom =>
        (LakehouseDef.leavesRoom_iff (hReach.valid_of_created hCreated)).mp hRoom _ hAccepted id⟩

end System

/-- A namespace and a table in it, under the largest names that a lakehouse accepts. -/
def LakehouseDef.fullestCalls (d : LakehouseDef) : List Transaction.Call :=
  [.make (.createNamespace (Name.filling d.namespaceNameMax.toNat) .blank),
    .make (.createTable (Name.filling d.namespaceNameMax.toNat) (Name.filling d.tableNameMax.toNat) .blank)]

namespace Ledger

variable {d : LakehouseDef} (uuid : Nat → Uuid)

/-- A change that is allowed and whose path is accepted is made. -/
theorem call_make {l : Ledger} {change : Change}
    (hAllows : l.catalog.allows d.keyLimits change = .ok ())
    (hPlace : change.placeable (uuid l.drawn) = .ok ()) :
    l.call d uuid (.make change) = (.ok none,
      ⟨l.catalog.after change, if change.definition?.isSome then l.drawn + 1 else l.drawn⟩) := by
  rw [call, hAllows]
  dsimp only
  rw [hPlace]

/-- In an empty catalog a namespace can be made, and then a table in it, if names and paths are accepted. -/
theorem answers_founding {ns table : String}
    (hAccepted : (Slot.ofTable ns table).Accepted d.keyLimits)
    (hNsPath : ∀ id, Path.check (DefinitionPath.ofNamespace ns id) = .ok ())
    (hTablePath : ∀ id, Path.check (DefinitionPath.ofTable ns table id) = .ok ()) (drawn : Nat)
    (definition : NamespaceDef) (tableDefinition : TableDef) :
    (Ledger.mk .empty drawn).answers d uuid
        [.make (.createNamespace ns definition), .make (.createTable ns table tableDefinition)] =
      [.ok none, .ok none] := by
  have hNs : Name.check "namespace" ns d.keyLimits.ns = .ok () := Name.check_eq_ok_iff.mpr hAccepted.1
  have hTable : Name.check "table" table d.keyLimits.table = .ok () :=
    Name.check_eq_ok_iff.mpr hAccepted.2
  have hFirst : (Ledger.mk .empty drawn).call d uuid (.make (.createNamespace ns definition)) =
      (.ok none, ⟨.insert .empty ns ⟨definition, .empty⟩, drawn + 1⟩) := by
    refine call_make uuid ?_ ?_
    · rw [Catalog.allows, hNs]
      rfl
    · rw [Change.placeable, hNsPath]
  have hSecond : ((Ledger.mk (.insert .empty ns ⟨definition, .empty⟩) (drawn + 1)).call d uuid
      (.make (.createTable ns table tableDefinition))).1 = .ok none := by
    refine congrArg Prod.fst (call_make uuid ?_ ?_)
    · rw [Catalog.allows, Catalog.tables, Catalog.shelf, hNs, TextMap.get?_insert_self, hTable]
      rfl
    · rw [Change.placeable, hTablePath]
  rw [answers, answers, answers, hFirst, hSecond]

/-- The largest namespace and the largest table can be made. -/
theorem answers_fullestCalls (h : d.zeroLimit? = none) (drawn : Nat) :
    (Ledger.mk .empty drawn).answers d uuid d.fullestCalls = [.ok none, .ok none] := by
  let ns := Name.filling d.namespaceNameMax.toNat
  let table := Name.filling d.tableNameMax.toNat
  have hAccepted : (Slot.ofTable ns table).Accepted d.keyLimits := LakehouseDef.accepted_fullest h
  have hSpace : (Slot.ofNamespace ns).Accepted d.keyLimits := hAccepted.1
  have hNsPath (id : Uuid) : Path.check (DefinitionPath.ofNamespace ns id) = .ok () :=
    Slot.check_path_filling hSpace (fun name hName => ⟨_, List.mem_singleton.mp hName⟩) id
  have hTablePath (id : Uuid) : Path.check (DefinitionPath.ofTable ns table id) = .ok () := by
    refine Slot.check_path_filling hAccepted (fun name hName => ?_) id
    rcases List.mem_pair.mp hName with rfl | rfl
    · exact ⟨_, rfl⟩
    · exact ⟨_, rfl⟩
  exact answers_founding uuid hAccepted hNsPath hTablePath drawn .blank .blank

end Ledger

namespace System

variable {site : Site} {s : System} {d : LakehouseDef}

/-- Nothing was committed up to the creation of the lakehouse. -/
theorem changesUpTo_zero (hCreated : (s.published site)[0]? = some (0, .create d)) :
    s.changesUpTo site 0 = [] := by
  obtain ⟨rest, hPublished⟩ : ∃ rest, s.published site = (0, .create d) :: rest := by
    cases hList : s.published site with
    | nil =>
        rw [hList] at hCreated
        cases hCreated
    | cons first rest =>
        rw [hList] at hCreated
        exact ⟨rest, by rw [Option.some.inj hCreated]⟩
  rw [changesUpTo, hPublished]
  rfl

/-- Where the limits of names leave no room, a transaction that begins at version 0 can fill it: it makes
the largest namespace and the largest table that the lakehouse accepts, and the name of the file of that
table breaks the limit. -/
theorem Reachable.fills_version_zero (hReach : Reachable site s)
    (hCreated : (s.published site)[0]? = some (0, .create d)) {w : Desk} (hStore : w.store = s.store)
    {supply : Supply} (hFresh : w.Fresh site supply 2) (mischief : Nat → Mischief)
    (isolation : IsolationLevel) : ∃ t w',
      (Lakehouse.beginAtVersion site 0 isolation).run (Desk.answer site supply mischief) w = (.ok t, w') ∧
        t.answers site (Desk.answer site supply mischief) w' d.fullestCalls = [.ok none, .ok none] := by
  have hVersion : (0 : Version).toNat < (s.published site).length :=
    (List.getElem?_eq_some_iff.mp hCreated).1
  have hFits : ∀ call ∈ d.fullestCalls, call.Fits := by
    intro call hMem
    rcases List.mem_pair.mp hMem with rfl | rfl
    · rintro _ _ ⟨⟩
      decide
    · rintro _ _ ⟨⟩
      decide
  obtain ⟨t, w', hBegin, hMirrors⟩ :=
    hReach.mirrors_begun hCreated hVersion hStore supply mischief isolation hFresh
  rw [changesUpTo_zero hCreated] at hMirrors
  exact ⟨t, w', hBegin, (hMirrors.answers mischief hFits).trans
    (Ledger.answers_fullestCalls _ (hReach.valid_of_created hCreated) _)⟩

end System

/-! ### The largest table -/

/-- Limits of names that leave room for all bytes but one. -/
def LakehouseDef.cramped : LakehouseDef :=
  { standard with namespaceNameMax := 2, tableNameMax := 1, fileNameMax := 55 }

/-- A client creates such a lakehouse, and in it, in one transaction, the largest namespace and the largest
table. -/
def Move.fullestTable : List Move :=
  .start 0 (.create .cramped) :: List.replicate 8 (.goOn 0) ++
    .start 0 (.begin .snapshot) :: List.replicate 10 (.goOn 0) ++
    .start 0 (.change 0 (.createNamespace (Name.filling 2) .blank)) :: List.replicate 6 (.goOn 0) ++
    .start 0 (.change 1 (.createTable (Name.filling 2) (Name.filling 1) .blank)) ::
      List.replicate 6 (.goOn 0)

/-- The definition with which an operation creates a lakehouse. -/
def Operation.founding? {τ : Type} : Operation τ → Option LakehouseDef
  | .create d => some d
  | _ => none

/-- The object of a change that brought a definition and succeeded. -/
def Event.defined? : Event → Option Slot
  | .ended _ (.change _ c) (.ok _) => if c.definition?.isSome then some c.slot else none
  | _ => none

namespace System

variable {site : Site} {s : System} {d : LakehouseDef}

/-- The state after that schedule. -/
def withFullestTable : System := play .top (.counting 5) Move.fullestTable

theorem reachable_withFullestTable : Reachable .top withFullestTable :=
  reachable_play fun _ _ => Move.fits_of_all (by decide +kernel)

theorem created_of_founding
    (h : ((s.published site)[0]?.map fun first => (first.1, first.2.founding?)) = some (0, some d)) :
    (s.published site)[0]? = some (0, .create d) := by
  obtain ⟨⟨v, op⟩, hFirst, hFounding⟩ := Option.map_eq_some_iff.mp h
  obtain ⟨rfl, hOp⟩ := Prod.mk.inj hFounding
  cases op with
  | create d' =>
      obtain rfl := Option.some.inj hOp
      exact hFirst
  | _ => cases hOp

theorem exists_call_of_defined {slot : Slot} (h : slot ∈ s.log.filterMap Event.defined?) :
    ∃ call ∈ s.calls, ∃ h c data path reply, call.operation = .change h c ∧
      c.definition? = some (data, path) ∧ call.outcome = .ok reply ∧ c.slot = slot := by
  obtain ⟨event, hEvent, hDefined⟩ := List.mem_filterMap.mp h
  unfold Event.defined? at hDefined
  split at hDefined
  · next client h c reply =>
      obtain ⟨hSome, hSlot⟩ := Option.ite_none_right_eq_some.mp hDefined
      obtain ⟨⟨data, path⟩, hDefinition⟩ := Option.isSome_iff_exists.mp hSome
      obtain ⟨call, hCall, -, hOperation, hOutcome⟩ := (mem_ended_iff [] s.log).mp hEvent
      exact ⟨call, hCall, h, c, data, path, reply, hOperation, hDefinition, hOutcome,
        Option.some.inj hSlot⟩
  · cases hDefined

/-- Whether the desk of a state draws unused identifiers can be read off the keys, if it counts them up. -/
theorem fresh_desk {time : Millis} {count : Nat} (hCount : count ≤ 2 ^ 128)
    (hKeys : (s.store.keys.all fun key => (List.range count).all fun i =>
      !Text.endsWith key (((Supply.counting time).uuid (s.log.length + i)).text ++
        DefinitionPath.suffix)) = true) : s.desk.Fresh site (.counting time) count := by
  refine .of_keys (fun j hj i hi hSame => ?_) hKeys
  have hBits : (s.log.length + i) % 2 ^ 128 = (s.log.length + j) % 2 ^ 128 :=
    congrArg (fun id : Uuid => id.bits.toNat) hSame
  omega

theorem defined_withFullestTable :
    ((withFullestTable.published .top)[0]?.map fun first => (first.1, first.2.founding?)) =
        some (0, some .cramped) ∧
      LakehouseDef.cramped.fullest ∈ withFullestTable.log.filterMap Event.defined? ∧
      (withFullestTable.store.keys.all fun key => (List.range 2).all fun i =>
        !Text.endsWith key (((Supply.counting 5).uuid (withFullestTable.log.length + i)).text ++
          DefinitionPath.suffix)) = true := by
  decide +kernel

theorem defined_afterRace :
    ((afterRace.published .top)[0]?.map fun first => (first.1, first.2.founding?)) =
        some (0, some { LakehouseDef.standard with namespaceNameMax := 7 }) ∧
      Slot.ofNamespace "ns" ∈ afterRace.log.filterMap Event.defined? := by
  decide +kernel

theorem fresh_withFullestTable : withFullestTable.desk.Fresh .top (.counting 5) 2 :=
  fresh_desk (by decide) defined_withFullestTable.2.2

/-! ### Sizes of file names -/

/-- How long the names of definition files are, in a lakehouse that was created with a definition. Every
change that succeeds and brings a definition stores it in one file, whose name has 52 bytes and those that
the names of the object bring. If the limits of names leave room in the limit of file names, no file name
exceeds that. Otherwise the limit is not kept: the file of the largest table that the lakehouse accepts has a
longer name, and in every state of the lakehouse a transaction can be begun in which that table is made. -/
theorem Reachable.file_name_sizes (hReach : Reachable site s)
    (hCreated : (s.published site)[0]? = some (0, .create d)) :
    (∀ call ∈ s.calls, ∀ h c data path reply, call.operation = .change h c →
      c.definition? = some (data, path) → call.outcome = .ok reply → ∃ id,
        alterations call.exchanges = [⟨site.resolve (path id), some (.bytes data)⟩] ∧
          (Path.fileName (path id)).utf8ByteSize = 52 + c.slot.nameSize ∧
          (d.LeavesRoom → (Path.fileName (path id)).utf8ByteSize ≤ d.fileNameMax.toNat)) ∧
    (¬ d.LeavesRoom →
      (∀ id, d.fileNameMax.toNat < (Path.fileName (d.fullest.path id)).utf8ByteSize) ∧
      ∀ (w : Desk) supply mischief isolation, w.store = s.store → w.Fresh site supply 2 → ∃ t w',
        (Lakehouse.beginAtVersion site 0 isolation).run (Desk.answer site supply mischief) w = (.ok t, w') ∧
          t.answers site (Desk.answer site supply mischief) w' d.fullestCalls = [.ok none, .ok none]) := by
  refine ⟨fun call hCall h c data path reply hChange hDefinition hEnd =>
      hReach.file_of_call hCreated hCall hChange hDefinition hEnd,
    fun hTight => ⟨fun id => ?_, fun w supply mischief isolation hStore hFresh =>
      hReach.fills_version_zero hCreated hStore hFresh mischief isolation⟩⟩
  rw [LakehouseDef.LeavesRoom, Nat.not_le] at hTight
  rw [(LakehouseDef.accepted_fullest (hReach.valid_of_created hCreated)).utf8ByteSize_fileName,
    LakehouseDef.fullest, Slot.nameSize, Name.utf8ByteSize_filling, Name.utf8ByteSize_filling]
  omega

/-- A table was made whose file has a longer name than the lakehouse allows. -/
theorem withFullestTable_stores_oversized : Reachable .top withFullestTable ∧
    (withFullestTable.published .top)[0]? = some (0, .create .cramped) ∧
    ∃ call ∈ withFullestTable.calls, ∃ h c data path reply id, call.operation = .change h c ∧
      c.definition? = some (data, path) ∧ call.outcome = .ok reply ∧
      alterations call.exchanges = [⟨Site.top.resolve (path id), some (.bytes data)⟩] ∧
      LakehouseDef.cramped.fileNameMax.toNat < (Path.fileName (path id)).utf8ByteSize := by
  have hCreated := created_of_founding defined_withFullestTable.1
  obtain ⟨call, hCall, h, c, data, path, reply, hChange, hDefinition, hEnd, hSlot⟩ :=
    exists_call_of_defined defined_withFullestTable.2.1
  obtain ⟨id, hFile, hSize, -⟩ :=
    reachable_withFullestTable.file_of_call hCreated hCall hChange hDefinition hEnd
  refine ⟨reachable_withFullestTable, hCreated, call, hCall, h, c, data, path, reply, id, hChange,
    hDefinition, hEnd, hFile, ?_⟩
  rw [hSize, hSlot]
  decide +kernel

/-- Both cases occur: in the race a namespace was made with room to spare, and where a byte is missing the
largest table can be made. -/
theorem file_name_sizes_reached :
    (∃ call ∈ afterRace.calls, ∃ h c data path reply id, call.operation = .change h c ∧
      c.definition? = some (data, path) ∧ call.outcome = .ok reply ∧ c.slot = .ofNamespace "ns" ∧
      alterations call.exchanges = [⟨Site.top.resolve (path id), some (.bytes data)⟩] ∧
      (Path.fileName (path id)).utf8ByteSize = 54 ∧ (Path.fileName (path id)).utf8ByteSize ≤ 200) ∧
    (∀ id, 55 < (Path.fileName (LakehouseDef.cramped.fullest.path id)).utf8ByteSize) ∧
    ∃ t w', (Lakehouse.beginAtVersion .top 0 .snapshot).run
        (Desk.answer .top (.counting 5) fun _ => .none) withFullestTable.desk = (.ok t, w') ∧
      t.answers .top (Desk.answer .top (.counting 5) fun _ => .none) w' LakehouseDef.cramped.fullestCalls =
        [.ok none, .ok none] := by
  have hStore : withFullestTable.desk.store = withFullestTable.store := by rw [desk]
  obtain ⟨call, hCall, h, c, data, path, reply, hChange, hDefinition, hEnd, hSlot⟩ :=
    exists_call_of_defined defined_afterRace.2
  obtain ⟨id, hFile, hSize, hKept⟩ := (Reachable.file_name_sizes reachable_afterRace
    (created_of_founding defined_afterRace.1)).1 call hCall h c data path reply hChange hDefinition hEnd
  obtain ⟨hLonger, hBegun⟩ := (Reachable.file_name_sizes reachable_withFullestTable
    (created_of_founding defined_withFullestTable.1)).2 (by decide)
  rw [hSlot] at hSize
  exact ⟨⟨call, hCall, h, c, data, path, reply, id, hChange, hDefinition, hEnd, hSlot, hFile, hSize,
    hKept (by decide)⟩, hLonger, hBegun _ _ _ _ hStore fresh_withFullestTable⟩

end System

end SnapshotCatalog
