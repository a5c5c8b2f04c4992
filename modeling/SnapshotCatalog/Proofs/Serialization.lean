import SnapshotCatalog.Proofs.Sessions
/-!
Commits are serializable. A commit hangs on one request, the creation of the root after the one at
which its transaction began, and whoever gets it publishes its version. So the published versions
are what the winning transactions make of the empty version 0 when they are replayed one after
another.
-/
namespace SnapshotCatalog

open Storage (Memory)
open Program

/-! ### The creation of a root -/

variable {site : Site} {version : Version}

namespace Lakehouse

end Lakehouse

/-! ### Published versions replayed -/

/-- The root that is stored as a version. -/
def Site.rootAt? (site : Site) (m : Memory) (v : Version) : Option Root :=
  (m.get? (site.resolve (RootPath.ofVersion v))).bind fun blob =>
    (Chain.parseRoot (.ofVersion v) blob).toOption

/-- The mutations that an operation publishes. -/
def Operation.mutations : Operation Handle → List Mutation
  | .commit h => h.past
  | _ => []

namespace Records

variable {m : Memory} {published : List Publication} {first : Publication} {d : LakehouseDef}

theorem rootAt?_eq (h : Records site m published) (v : Version) :
    site.rootAt? m v = published[v.toNat]?.map (·.root) := by
  rw [Site.rootAt?, h.stored v]
  cases hp : published[v.toNat]? with
  | none => rfl
  | some p =>
      obtain ⟨first, hFirst⟩ := exists_first (List.mem_of_getElem? hp)
      have hVersion := h.isVersion hFirst hp
      rw [UInt64.ofNat_toNat] at hVersion
      rw [Option.map_some, Option.bind_some, hVersion.parseRoot_blob]
      rfl

/-- The transaction that published a version began at the root before it, and its mutations, made
one on top of the other, lead from the rows of the one to the rows of the other. -/
theorem replay_next (h : Records site m published) (hFirst : published[0]? = some first)
    (hGoverns : Governs site m first.root.lakehouseDefPath d) {i : Nat} {p q : Publication}
    (hp : published[i]? = some p) (hq : published[i + 1]? = some q) :
    ∃ handle, q.author = .commit handle ∧ handle.transaction.beginning = p.root ∧
      replay d.keyLimits p.root.rows handle.past = .ok q.root.rows := by
  obtain ⟨version, handle, d', draft, time, hAuthor, hBeginning, hSound, hDraft, -, hRoot⟩ :=
    h.next i p q hp hq
  refine ⟨handle, hAuthor, hBeginning, ?_⟩
  have hOther := hSound.governs
  rw [hBeginning, (h.isVersion hFirst hp).lakehouseDefPath] at hOther
  obtain rfl := hGoverns.unique hOther
  obtain ⟨location, -, -, -, hDrafted⟩ := Lakehouse.draft_eq_ok hDraft
  have hRows : q.root.rows = handle.transaction.running.rows := by rw [hRoot, hDrafted]; rfl
  rw [hRows, ← hBeginning, ← Root.map_rows_replay, hSound.replayed]
  rfl

/-- The rows of a version are what the winning transactions up to it make of no rows at all. -/
theorem replay_all (h : Records site m published) (hFirst : published[0]? = some first)
    (hGoverns : Governs site m first.root.lakehouseDefPath d) {i : Nat} {p : Publication}
    (hp : published[i]? = some p) :
    replay d.keyLimits .empty ((published.take (i + 1)).flatMap (·.author.mutations)) =
      .ok p.root.rows := by
  induction i generalizing p with
  | zero =>
      obtain ⟨_, path, time, hAuthor, -, -, hRoot⟩ := h.first p hp
      rw [List.take_add_one, List.take_zero, hp, List.nil_append, Option.toList_some,
        List.flatMap_singleton, hAuthor, hRoot]
      rfl
  | succ i ih =>
      have hLength := (List.getElem?_eq_some_iff.mp hp).1
      have hBefore : published[i]? = some published[i] := List.getElem?_eq_getElem (by omega)
      obtain ⟨handle, hAuthor, -, hReplay⟩ := h.replay_next hFirst hGoverns hBefore hp
      rw [List.take_add_one, List.flatMap_append, hp, Option.toList_some, List.flatMap_singleton,
        replay_append, ih hBefore, hAuthor]
      exact hReplay

/-- The definitions that committed transactions brought are stored where their mutations say. -/
theorem stored_mutations (h : Records site m published) (count : Nat) :
    ∀ mutation ∈ (published.take count).flatMap (·.author.mutations), mutation.Stored site m := by
  intro mutation hMem
  obtain ⟨p, hp, hMem⟩ := List.mem_flatMap.mp hMem
  obtain ⟨i, hi⟩ := List.getElem?_of_mem (List.mem_of_mem_take hp)
  cases i with
  | zero =>
      obtain ⟨d, path, time, hAuthor, -⟩ := h.first p hi
      rw [hAuthor] at hMem
      cases hMem
  | succ i =>
      have hLength := (List.getElem?_eq_some_iff.mp hi).1
      have hBefore : published[i]? = some published[i] := List.getElem?_eq_getElem (by omega)
      obtain ⟨version, handle, d, draft, time, hAuthor, -, hSound, -⟩ := h.next i _ _ hBefore hi
      rw [hAuthor] at hMem
      exact hSound.stored mutation hMem

end Records

namespace System

variable {s : System} {published : List Publication}

/-- The mutations of the first versions, as published and as recorded. -/
theorem Sound.mutations_take (hSound : s.Sound site published) (count : Nat) :
    ((s.published site).take count).flatMap (·.2.mutations) =
      (published.take count).flatMap (·.author.mutations) := by
  have hSame := congrArg (fun ops => (ops.take count).flatMap Operation.mutations)
    (map_snd_numbered published)
  rw [hSound.log]
  simpa only [← List.map_take, List.flatMap_map] using hSame

/-- What a creation is told: that it wrote, when there was nothing, that there was something, or that
it failed without effect. -/
theorem Serves.createNew {m m' : Memory} {key : String} {blob : Storage.Blob}
    {a : Except Error Storage.WriteOutcome} (h : Serves m (.call (.put key blob .createNew)) a m') :
    (m.contains key = false ∧ a = .ok .written ∧ m' = m.insert key blob) ∨
      (m.contains key = true ∧ a = .ok .alreadyExists ∧ m' = m) ∨
      (∃ e : Error, e.isFault = true ∧ a = .error e ∧ m' = m) := by
  cases h with
  | failed _ e hFault => exact .inr (.inr ⟨e, hFault, rfl, rfl⟩)
  | performed _ =>
      rw [answer_createNew]
      cases hContains : m.contains key with
      | true => exact .inr (.inl ⟨rfl, rfl, rfl⟩)
      | false => exact .inl ⟨rfl, rfl, rfl⟩

/-- A creation that wrote found nothing in its place. -/
theorem Serves.contains_of_created {m m' : Memory} {key : String} {blob : Storage.Blob}
    (h : Serves m (.call (.put key blob .createNew)) (.ok .written) m') : m.contains key = false := by
  rcases h.createNew with ⟨hAbsent, -⟩ | ⟨-, hNever, -⟩ | ⟨_, -, hNever, -⟩
  · exact hAbsent
  · cases hNever
  · cases hNever

end System

end SnapshotCatalog
