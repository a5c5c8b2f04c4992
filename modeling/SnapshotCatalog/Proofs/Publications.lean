import SnapshotCatalog.Proofs.DefinitionCodec
import SnapshotCatalog.Proofs.Mutations
import SnapshotCatalog.Proofs.NodeCodec
import SnapshotCatalog.Proofs.Paths
import SnapshotCatalog.Proofs.System
/-!
The published versions as a list, and what a store that holds them looks like. The root of version 0
names a definition of the lakehouse; each later root is what one transaction made of the root before
it. Everything said here about a store stays true when objects are added to it, which is all that
clients do to it apart from the hint.
-/
namespace SnapshotCatalog

open Storage (Memory)

/-- A read leaves a store as it is. -/
theorem Storage.Memory.answer_get_snd (key : String) (m : Memory) : (answer (.get key) m).2 = m := by
  rw [answer]
  split <;> rfl

/-- So does every call that is no write. -/
theorem Storage.Memory.answer_snd_of_not_write {c : Storage.Call} (h : c.isWrite = false) (m : Memory) :
    (answer c m).2 = m := by
  cases c with
  | get key => exact answer_get_snd key m
  | put key blob mode => cases h
  | delete key => cases h
  | list start => rfl
  | head key => rfl

/-- Nothing but the hint was lost or changed between two states of a store. -/
def Site.Grows (site : Site) (m m' : Memory) : Prop :=
  ∀ key blob, key ≠ site.resolve Hint.path → m.get? key = some blob → m'.get? key = some blob

namespace Site.Grows

variable {site : Site} {m m' m'' : Memory}

theorem refl (m : Memory) : site.Grows m m := fun _ _ _ => id

theorem trans (h : site.Grows m m') (hMore : site.Grows m' m'') : site.Grows m m'' :=
  fun key blob hKey hGet => hMore key blob hKey (h key blob hKey hGet)

/-- An object where there was none takes nothing away. -/
theorem insert {key : String} (h : m.get? key = none) (blob : Storage.Blob) :
    site.Grows m (m.insert key blob) := by
  intro other found _ hGet
  have hOther : other ≠ key := by
    rintro rfl
    rw [h] at hGet
    cases hGet
  rw [TextMap.get?_insert_of_ne _ hOther]
  exact hGet

end Site.Grows

/-- The object of a root that was stored. -/
def Root.blob (r : Root) : Storage.Blob := .node (Node.encode r (r.createdAt.getD 0))

/-- A definition of a lakehouse lies at a path and is fit for use. -/
structure Governs (site : Site) (m : Memory) (path : String) (d : LakehouseDef) : Prop where
  made : ∃ id, path = DefinitionPath.ofLakehouse id
  stored : m.get? (site.resolve path) = some (.bytes d.encode)
  fits : d.encode.length < UInt64.size
  valid : d.zeroLimit? = none

namespace Governs

variable {site : Site} {m m' : Memory} {path : String} {d other : LakehouseDef}

theorem ne_hint (h : Governs site m path d) : site.resolve path ≠ site.resolve Hint.path := by
  obtain ⟨id, rfl⟩ := h.made
  exact site.resolve_ne_hint (DefinitionPath.bears_ofLakehouse id).ne_hint

theorem grows (h : Governs site m path d) (hGrows : site.Grows m m') : Governs site m' path d :=
  ⟨h.made, hGrows _ _ h.ne_hint h.stored, h.fits, h.valid⟩

/-- Only one definition lies at a path. -/
theorem unique (h : Governs site m path d) (hOther : Governs site m path other) : d = other := by
  have hSame := h.stored.symm.trans hOther.stored
  have hBytes : d.encode = other.encode := Storage.Blob.bytes.inj (Option.some.inj hSame)
  have hDecode := d.decode_encode h.fits
  rw [hBytes, other.decode_encode hOther.fits] at hDecode
  exact (Except.ok.inj hDecode).symm

end Governs

/-- The place of a mutation's definition is accepted, and the definition lies there. -/
theorem Mutation.Stored.grows {site : Site} {m m' : Memory} {mutation : Mutation}
    (h : mutation.Stored site m) (hGrows : site.Grows m m') : mutation.Stored site m' := by
  intro data path hDefinition
  obtain ⟨hFits, id, hDrawn, hAccepted, hGet⟩ := h data path hDefinition
  have hBears : DefinitionPath.Bears id (path id) := Change.bears_of_definition hDefinition id
  exact ⟨hFits, id, hDrawn, hAccepted, hGrows _ _ (site.resolve_ne_hint hBears.ne_hint) hGet⟩

/-- What is known of a transaction: its private root is what its mutations make of the root at which
it began, under the limits of the lakehouse, and their definitions are stored. -/
structure Handle.Sound (site : Site) (m : Memory) (h : Handle) (d : LakehouseDef) : Prop where
  governs : Governs site m h.transaction.beginning.lakehouseDefPath d
  replayed : h.transaction.beginning.replay d.keyLimits h.past = .ok h.transaction.running
  stored : ∀ mutation ∈ h.past, mutation.Stored site m

namespace Handle.Sound

variable {site : Site} {m m' : Memory} {h : Handle} {d : LakehouseDef}

theorem grows (hSound : h.Sound site m d) (hGrows : site.Grows m m') : h.Sound site m' d :=
  ⟨hSound.governs.grows hGrows, hSound.replayed,
    fun mutation hMem => (hSound.stored mutation hMem).grows hGrows⟩

theorem lakehouseDefPath_running (hSound : h.Sound site m d) :
    h.transaction.running.lakehouseDefPath = h.transaction.beginning.lakehouseDefPath :=
  Root.replay_induction
    (fun _ _ _ hApply hPath => (Mutation.lakehouseDefPath_of_applyTo hApply).trans hPath)
    hSound.replayed rfl

theorem governs_running (hSound : h.Sound site m d) :
    Governs site m h.transaction.running.lakehouseDefPath d :=
  hSound.lakehouseDefPath_running ▸ hSound.governs

theorem marked_running (hSound : h.Sound site m d) (hMarked : h.transaction.beginning.Marked) :
    h.transaction.running.Marked :=
  Root.replay_induction (fun _ _ _ => Mutation.marked_of_applyTo) hSound.replayed hMarked

theorem placed_running (hSound : h.Sound site m d) (hPlaced : h.transaction.beginning.Placed) :
    h.transaction.running.Placed :=
  Root.replay_induction (fun _ _ _ => Mutation.placed_of_applyTo) hSound.replayed hPlaced

end Handle.Sound

/-- A published version: the operation that created its root, and the root. -/
structure Publication where
  author : Operation Handle
  root : Root

namespace Publication

/-- Version 0: an empty root, published by a creation that stored the definition it names. -/
def Founds (site : Site) (m : Memory) (p : Publication) : Prop :=
  ∃ d path time, p.author = .create d ∧ Governs site m path d ∧
    Lakehouse.checkSize (Node.encode (Root.new path) time) d = .ok () ∧
    p.root = (Root.new path).persistedAt (.ofVersion 0) time

/-- A later version: what a transaction that began at a root was about to publish. -/
def Follows (site : Site) (m : Memory) (p : Publication) (before : Root) (version : Version) :
    Prop :=
  ∃ h d draft time, p.author = .commit h ∧ h.transaction.beginning = before ∧
    h.Sound site m d ∧ Lakehouse.draft h.transaction = .ok (version, draft) ∧
    Lakehouse.checkSize (Node.encode draft time) d = .ok () ∧
    p.root = draft.persistedAt (.ofVersion version) time

end Publication

/-- A store holds exactly these versions. -/
structure Records (site : Site) (m : Memory) (published : List Publication) : Prop where
  stored : ∀ v : Version,
    m.get? (site.resolve (RootPath.ofVersion v)) = (published[v.toNat]?).map (·.root.blob)
  countable : published.length ≤ UInt64.size
  first : ∀ p, published[0]? = some p → p.Founds site m
  next : ∀ i p q, published[i]? = some p → published[i + 1]? = some q →
    ∃ version, q.Follows site m p.root version

/-- What is true of the root of a version in a chain whose lakehouse is defined at a path. -/
structure Root.IsVersion (path : String) (v : Version) (r : Root) : Prop where
  location : r.location = some (.ofVersion v)
  stamped : ∃ time, r.createdAt = some time
  lakehouseDefPath : r.lakehouseDefPath = path
  previousRootPath :
    r.previousRootPath = if v = 0 then none else some (RootPath.ofVersion (v - 1))
  marked : r.Marked
  placed : r.Placed
  small : r.rows.size < UInt64.size

namespace Root.IsVersion

variable {path : String} {v : Version} {r : Root}

/-- The root of a version reads back from its object. -/
theorem parseRoot_blob (h : r.IsVersion path v) :
    Chain.parseRoot (.ofVersion v) r.blob = .ok r := by
  obtain ⟨time, hTime⟩ := h.stamped
  have hDecode := Node.decode_encode (r.createdAt.getD 0) h.marked h.small
  rw [Chain.parseRoot, blob]
  simp only [Chain.parseNode, hDecode]
  obtain ⟨location, createdAt, _, _, _, _⟩ := r
  cases h.location
  cases hTime
  rfl

theorem eq_of_location (h : r.IsVersion path v) {location : Location}
    (hLocation : r.location = some location) : location = .ofVersion v :=
  (Option.some.inj (h.location.symm.trans hLocation)).symm

end Root.IsVersion

/-- What a transaction is about to publish, spelt out. -/
theorem Lakehouse.draft_eq_ok {t : Transaction} {version : Version} {draft : Root}
    (h : Lakehouse.draft t = .ok (version, draft)) :
    ∃ location, t.beginning.location = some location ∧
      location.version.toNat + 1 ≠ UInt64.size ∧ version = location.version + 1 ∧
      draft = { t.running with previousRootPath := some location.path } := by
  rw [Lakehouse.draft] at h
  split at h
  · cases h
  · split at h
    · cases h
    · next location hLocation =>
      split at h
      · cases h
      · next hMore =>
        cases h
        exact ⟨location, hLocation, hMore, rfl, rfl⟩

theorem Lakehouse.size_le_of_checkSize {file : Node.File} {d : LakehouseDef}
    (h : Lakehouse.checkSize file d = .ok ()) : file.size ≤ d.nodeFileMax.toNat := by
  rw [Lakehouse.checkSize] at h
  split at h
  · cases h
  · next hSize => exact Nat.le_of_not_lt hSize

/-- A file that is not too large holds fewer rows than can be counted. -/
theorem Lakehouse.rows_size_lt_of_checkSize {r : Root} {time : Millis} {d : LakehouseDef}
    (h : Lakehouse.checkSize (Node.encode r time) d = .ok ()) : r.rows.size < UInt64.size :=
  Nat.lt_trans (Nat.lt_of_lt_of_le (Node.size_lt_size_encode r time)
    (Lakehouse.size_le_of_checkSize h)) d.nodeFileMax.toNat_lt

theorem UInt64.toNat_add_one {v : UInt64} (h : v.toNat + 1 ≠ UInt64.size) :
    (v + 1).toNat = v.toNat + 1 := by
  have hBound := v.toNat_lt
  rw [UInt64.toNat_add]
  simp only [UInt64.size] at h
  exact Nat.mod_eq_of_lt (by simp only [UInt64.toNat_one]; omega)

/-- What a transaction drafts at a version is, once it is stamped, the root of the next version. -/
theorem Handle.Sound.isVersion_draft {site : Site} {m : Memory} {h : Handle} {d : LakehouseDef}
    {path : String} {v version : Version} {draft : Root} (hSound : h.Sound site m d)
    (hBefore : h.transaction.beginning.IsVersion path v)
    (hDraft : Lakehouse.draft h.transaction = .ok (version, draft))
    (hSmall : draft.rows.size < UInt64.size) (time : Millis) :
    v.toNat + 1 ≠ UInt64.size ∧ version = v + 1 ∧
      (draft.persistedAt (.ofVersion version) time).IsVersion path version := by
  obtain ⟨location, hLocation, hMore, rfl, rfl⟩ := Lakehouse.draft_eq_ok hDraft
  cases hBefore.eq_of_location hLocation
  have hNonzero : v + 1 ≠ 0 := by
    intro hZero
    have hNext : (v + 1).toNat = v.toNat + 1 := UInt64.toNat_add_one hMore
    rw [hZero, UInt64.toNat_zero] at hNext
    omega
  refine ⟨hMore, rfl, rfl, ⟨time, rfl⟩, ?_, ?_, hSound.marked_running hBefore.marked,
    hSound.placed_running hBefore.placed, hSmall⟩
  · show h.transaction.running.lakehouseDefPath = path
    rw [hSound.lakehouseDefPath_running, hBefore.lakehouseDefPath]
  · show some (RootPath.ofVersion v) = if v + 1 = 0 then none else some (RootPath.ofVersion (v + 1 - 1))
    rw [if_neg hNonzero, UInt64.add_sub_cancel]

namespace Publication

variable {site : Site} {m m' : Memory} {p : Publication} {before : Root} {path : String}
  {v version : Version}

theorem Founds.isVersion (h : p.Founds site m) :
    p.root.IsVersion p.root.lakehouseDefPath 0 := by
  obtain ⟨d, path, time, -, -, -, hRoot⟩ := h
  rw [hRoot]
  exact ⟨rfl, ⟨time, rfl⟩, rfl, rfl, nofun, nofun, Nat.two_pow_pos 64⟩

theorem Founds.grows (h : p.Founds site m) (hGrows : site.Grows m m') : p.Founds site m' := by
  obtain ⟨d, path, time, hAuthor, hGoverns, hRest⟩ := h
  exact ⟨d, path, time, hAuthor, hGoverns.grows hGrows, hRest⟩

theorem Follows.grows (h : p.Follows site m before version) (hGrows : site.Grows m m') :
    p.Follows site m' before version := by
  obtain ⟨h, d, draft, time, hAuthor, hBeginning, hSound, hRest⟩ := h
  exact ⟨h, d, draft, time, hAuthor, hBeginning, hSound.grows hGrows, hRest⟩

/-- What follows a version is the version after it. -/
theorem Follows.isVersion (h : p.Follows site m before version) (hBefore : before.IsVersion path v) :
    v.toNat + 1 ≠ UInt64.size ∧ version = v + 1 ∧ p.root.IsVersion path version := by
  obtain ⟨h, d, draft, time, -, rfl, hSound, hDraft, hSize, hRoot⟩ := h
  rw [hRoot]
  exact hSound.isVersion_draft hBefore hDraft (Lakehouse.rows_size_lt_of_checkSize hSize) time

end Publication

namespace Records

variable {site : Site} {m m' : Memory} {published : List Publication} {p first : Publication}

/-- Every published root is the root of its version, and all name the same lakehouse definition. -/
theorem isVersion (h : Records site m published) (hFirst : published[0]? = some first) {i : Nat}
    (hp : published[i]? = some p) :
    p.root.IsVersion first.root.lakehouseDefPath (UInt64.ofNat i) := by
  induction i generalizing p with
  | zero =>
      cases hFirst.symm.trans hp
      exact (h.first first hFirst).isVersion
  | succ i ih =>
      have hLength := (List.getElem?_eq_some_iff.mp hp).1
      have hBefore : published[i]? = some published[i] := List.getElem?_eq_getElem (by omega)
      obtain ⟨version, hFollows⟩ := h.next i _ _ hBefore hp
      obtain ⟨-, rfl, hVersion⟩ := hFollows.isVersion (ih hBefore)
      rw [UInt64.ofNat_add]
      exact hVersion

theorem exists_first {published : List Publication} (hp : p ∈ published) :
    ∃ first, published[0]? = some first := by
  cases published with
  | nil => cases hp
  | cons first rest => exact ⟨first, rfl⟩

/-- What is stored at a root path is the root of that version. -/
theorem get?_root (h : Records site m published) {v : Version} {blob : Storage.Blob}
    (hGet : m.get? (site.resolve (RootPath.ofVersion v)) = some blob) :
    ∃ p first, published[v.toNat]? = some p ∧ published[0]? = some first ∧ blob = p.root.blob ∧
      p.root.IsVersion first.root.lakehouseDefPath v := by
  rw [h.stored v] at hGet
  obtain ⟨p, hp, rfl⟩ := Option.map_eq_some_iff.mp hGet
  obtain ⟨first, hFirst⟩ := exists_first (List.mem_of_getElem? hp)
  have hVersion := h.isVersion hFirst hp
  rw [UInt64.ofNat_toNat] at hVersion
  exact ⟨p, first, hp, hFirst, rfl, hVersion⟩

theorem contains_root_iff (h : Records site m published) (v : Version) :
    m.contains (site.resolve (RootPath.ofVersion v)) = true ↔ v.toNat < published.length := by
  rw [TextMap.contains, h.stored v]
  simp

/-- The definition of the lakehouse is the one that its creation was given. -/
theorem governs (h : Records site m published) (hFirst : published[0]? = some first) :
    ∃ d, first.author = .create d ∧ Governs site m first.root.lakehouseDefPath d := by
  obtain ⟨d, path, time, hAuthor, hGoverns, -, hRoot⟩ := h.first first hFirst
  refine ⟨d, hAuthor, ?_⟩
  rw [hRoot]
  exact hGoverns

theorem empty (site : Site) : Records site .empty [] :=
  ⟨fun v => by simp, Nat.zero_le _, fun p hp => by simp at hp, fun i p q hp => by simp at hp⟩

/-- Objects other than roots make no difference. -/
theorem grows (h : Records site m published) (hGrows : site.Grows m m')
    (hRoots : ∀ v : Version, m'.get? (site.resolve (RootPath.ofVersion v)) =
      m.get? (site.resolve (RootPath.ofVersion v))) : Records site m' published :=
  ⟨fun v => (hRoots v).trans (h.stored v), h.countable,
    fun p hp => (h.first p hp).grows hGrows, fun i p q hp hq =>
      (h.next i p q hp hq).imp fun _ hFollows => hFollows.grows hGrows⟩

section Append

variable {v : Version} (h : Records site m published) (hv : v.toNat = published.length)

include h hv

theorem absent_next : m.get? (site.resolve (RootPath.ofVersion v)) = none := by
  rw [h.stored, hv, List.getElem?_eq_none (Nat.le_refl _)]
  rfl

theorem stored_next (p : Publication) (w : Version) :
    (m.insert (site.resolve (RootPath.ofVersion v)) p.root.blob).get?
        (site.resolve (RootPath.ofVersion w)) =
      ((published ++ [p])[w.toNat]?).map (·.root.blob) := by
  by_cases hSame : w = v
  · subst hSame
    rw [TextMap.get?_insert_self, hv, List.getElem?_append_right (Nat.le_refl _), Nat.sub_self]
    rfl
  · have hKey : site.resolve (RootPath.ofVersion w) ≠ site.resolve (RootPath.ofVersion v) :=
      fun hKey => hSame (RootPath.ofVersion_injective (site.resolve_injective hKey))
    have hPlace : w.toNat ≠ published.length := fun hPlace =>
      hSame (UInt64.toNat_inj.mp (hPlace.trans hv.symm))
    rw [TextMap.get?_insert_of_ne _ hKey, h.stored w]
    congr 1
    rcases Nat.lt_or_gt_of_ne hPlace with hLess | hMore
    · rw [List.getElem?_append_left hLess]
    · rw [List.getElem?_eq_none (Nat.le_of_lt hMore), List.getElem?_eq_none]
      rw [List.length_append, List.length_singleton]
      exact hMore

/-- The store with one more version. -/
theorem append (hFirst : published = [] → p.Founds site m)
    (hNext : ∀ before, published.getLast? = some before → p.Follows site m before.root v) :
    Records site (m.insert (site.resolve (RootPath.ofVersion v)) p.root.blob)
      (published ++ [p]) := by
  have hGrows : site.Grows m _ := .insert (h.absent_next hv) p.root.blob
  refine ⟨h.stored_next hv p, ?_, ?_, ?_⟩
  · rw [List.length_append, List.length_singleton, ← hv]
    exact v.toNat_lt
  · intro q hq
    cases published with
    | nil =>
        cases hq
        exact (hFirst rfl).grows hGrows
    | cons first rest => exact (h.first q hq).grows hGrows
  · intro i before q hBefore hq
    have hLength := (List.getElem?_eq_some_iff.mp hq).1
    rw [List.length_append, List.length_singleton] at hLength
    rw [List.getElem?_append_left (by omega)] at hBefore
    by_cases hInside : i + 1 < published.length
    · rw [List.getElem?_append_left hInside] at hq
      exact (h.next i before q hBefore hq).imp fun _ hFollows => hFollows.grows hGrows
    · have hLast : i + 1 = published.length := by omega
      have hEnd : published.getLast? = some before := by
        rw [List.getLast?_eq_getElem?, ← hLast]
        exact hBefore
      rw [hLast, List.getElem?_append_right (Nat.le_refl _), Nat.sub_self] at hq
      cases hq
      exact ⟨v, (hNext before hEnd).grows hGrows⟩

end Append

end Records

end SnapshotCatalog
