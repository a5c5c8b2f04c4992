import SnapshotCatalog.Proofs.Origins
import SnapshotCatalog.Proofs.Requests
/-!
The keys of a lakehouse. Its paths are those of roots, the hint and definitions. They are files at the
top whose names begin with an underscore, or files three directories down whose names begin with a
binary digit, so lakehouses in different directories have no key in common, also when one directory
lies within the other. Everything that an operation asks of the store is about such a key.
-/
namespace SnapshotCatalog

open Storage (Memory Call)
open Program

/-! ### Shapes of paths -/

/-- The paths that a catalog uses. -/
inductive CatalogPath : String → Prop
  | root (v : Version) : CatalogPath (RootPath.ofVersion v)
  | hint : CatalogPath Hint.path
  | lakehouse (id : Uuid) : CatalogPath (DefinitionPath.ofLakehouse id)
  | definition {limits : KeyLimits} {slot : Slot} (h : slot.Accepted limits) (id : Uuid) :
      CatalogPath (slot.path id)

/-- The segments of such paths: one that begins with an underscore, or four, none of which is empty, and
the last of which begins otherwise. -/
inductive Path.Shape : List (List Char) → Prop
  | top (name : List Char) : Shape ['_' :: name]
  | scattered {first second third : List Char} {digit : Char} (hFirst : first ≠ [])
      (hSecond : second ≠ []) (hThird : third ≠ []) (hDigit : digit ≠ '_') (file : List Char) :
      Shape [first, second, third, digit :: file]

theorem Path.Shape.ne_nil {segments : List (List Char)} (h : Shape segments) :
    ∀ segment ∈ segments, segment ≠ [] := by
  cases h with
  | top name => simp
  | scattered hFirst hSecond hThird hDigit file => simp [hFirst, hSecond, hThird]

/-- A path without slashes has one segment. -/
theorem Path.shape_of_plain {path : String} (hPlain : ∀ c ∈ path.toList, isPlain c = true)
    (hStart : path.toList.head? = some '_') : Shape (segments path.toList) := by
  obtain ⟨name, hName⟩ := List.head?_eq_some_iff.mp hStart
  rw [segments_of_not_mem (not_mem_of_plain hPlain), hName]
  exact .top name

namespace DefinitionPath

/-- The path of a file scatters it. -/
theorem shape_file {file : String} (h : '/' ∉ file.toList) :
    Path.Shape (Path.segments (directories file ++ "-" ++ file).toList) := by
  have hLength := length_hashBits file
  obtain ⟨digit, rest, hDigits⟩ : ∃ digit rest, (hashBits file).drop 12 = digit :: rest :=
    List.exists_cons_of_length_pos (by simp [hLength])
  have hDigit : digit ≠ '_' := by
    have hMem : digit ∈ hashBits file :=
      List.mem_of_mem_drop (hDigits ▸ List.mem_cons_self : digit ∈ (hashBits file).drop 12)
    obtain ⟨i, -, rfl⟩ := List.mem_map.mp hMem
    split <;> decide
  have hNonempty (n : Nat) (hn : n < 20) : ((hashBits file).drop n).take 4 ≠ [] := by
    intro hNil
    have hSize := congrArg List.length hNil
    simp only [List.length_take, List.length_drop, hLength, List.length_nil] at hSize
    omega
  rw [segments_eq h, hDigits]
  exact .scattered (hNonempty 0 (by decide)) (hNonempty 4 (by decide)) (hNonempty 8 (by decide))
    hDigit _

end DefinitionPath

theorem CatalogPath.shape {path : String} (h : CatalogPath path) :
    Path.Shape (Path.segments path.toList) := by
  cases h with
  | root v =>
      refine Path.shape_of_plain (fun _ => Path.isPlain_of_mem_root) ?_
      rw [RootPath.toList_ofVersion]
      rfl
  | hint => exact .top _
  | lakehouse id =>
      refine Path.shape_of_plain (fun _ => DefinitionPath.isPlain_of_mem_ofLakehouse) ?_
      rw [DefinitionPath.ofLakehouse, String.append_assoc, String.toList_append]
      rfl
  | definition hSlot id =>
      rw [Slot.path_eq]
      exact DefinitionPath.shape_file fun hSlash =>
        absurd (hSlot.file_allowed id _ hSlash) (by decide)

/-! ### Keys of different lakehouses -/

namespace Site

variable {site a b : Site} {key : String}

/-- The segments of the directory that a lakehouse lies in. -/
def segments (site : Site) : List (List Char) :=
  match site.directory with
  | some directory => Path.segments directory.toList
  | none => []

theorem segments_resolve (site : Site) (path : String) :
    Path.segments (site.resolve path).toList = site.segments ++ Path.segments path.toList := by
  rw [resolve, segments]
  cases site.directory with
  | none => rfl
  | some directory =>
      have hSlash : "/".toList = ['/'] := by decide
      simp only [String.toList_append, hSlash, List.append_assoc, List.singleton_append]
      exact Path.segments_below _ _

/-- Directories that are cut into the same segments are the same. -/
theorem segments_injective : Function.Injective segments := by
  rintro ⟨directory⟩ ⟨other⟩ h
  cases directory with
  | none =>
      cases other with
      | none => rfl
      | some other => exact absurd h.symm (Path.segments_ne_nil _)
  | some directory =>
      cases other with
      | none => exact absurd h (Path.segments_ne_nil _)
      | some other =>
          have hJoined : Path.joinSegments (Path.segments directory.toList) =
              Path.joinSegments (Path.segments other.toList) := congrArg Path.joinSegments h
          rw [Path.joinSegments_segments, Path.joinSegments_segments] at hJoined
          rw [String.toList_inj.mp hJoined]

/-- The keys of a lakehouse. -/
def Owns (site : Site) (key : String) : Prop := ∃ path, CatalogPath path ∧ key = site.resolve path

/-- Lakehouses in different directories have no key in common. -/
theorem Owns.apart (hOther : a ≠ b) (h : a.Owns key) : ¬ b.Owns key := by
  rintro ⟨other, hOtherPath, hSame⟩
  obtain ⟨path, hPath, rfl⟩ := h
  have hSegments : a.segments ++ Path.segments path.toList =
      b.segments ++ Path.segments other.toList := by
    rw [← segments_resolve, ← segments_resolve, hSame]
  have hShape := hPath.shape
  have hOtherShape := hOtherPath.shape
  generalize Path.segments path.toList = these at hShape hSegments
  generalize Path.segments other.toList = those at hOtherShape hSegments
  -- Files at one depth lie in one directory; else they are told apart by how their names begin.
  have hLast := congrArg List.getLast? hSegments
  cases hShape with
  | top name =>
      cases hOtherShape with
      | top name' => exact hOther (segments_injective (List.append_inj_left' hSegments rfl))
      | scattered _ _ _ hDigit file =>
          simp only [List.getLast?_append, List.getLast?_cons_cons, List.getLast?_singleton,
            Option.some_or, Option.some.injEq, List.cons.injEq] at hLast
          exact hDigit hLast.1.symm
  | scattered _ _ _ hDigit file =>
      cases hOtherShape with
      | top name' =>
          simp only [List.getLast?_append, List.getLast?_cons_cons, List.getLast?_singleton,
            Option.some_or, Option.some.injEq, List.cons.injEq] at hLast
          exact hDigit hLast.1
      | scattered _ _ _ _ file' =>
          exact hOther (segments_injective (List.append_inj_left' hSegments rfl))

end Site

/-! ### What operations ask -/

/-- A request stays among the keys of a lakehouse. Nothing is listed and nothing is deleted. -/
def Request.Within (site : Site) : Request → Prop
  | .call (.get key) => site.Owns key
  | .call (.head key) => site.Owns key
  | .call (.put key _ _) => site.Owns key
  | .call (.list _) => False
  | .call (.delete _) => False
  | _ => True

/-- All that a root names are paths of the catalog. -/
structure Root.Settled (r : Root) : Prop where
  lakehouse : CatalogPath r.lakehouseDefPath
  rows : ∀ entry ∈ r.rows.entries, CatalogPath entry.2

variable {site : Site} {s : System}

theorem coversChain_within (site : Site) : CoversChain site (Request.Within site) :=
  ⟨⟨fun v => ⟨_, .root v, rfl⟩, fun _ => trivial⟩, fun v => ⟨_, .root v, rfl⟩⟩

theorem covers_within {op : Operation Transaction}
    (h : ∀ t, op.about? = some t → t.running.Settled) : Covers site (Request.Within site) op where
  chain := coversChain_within site
  readHint := ⟨_, .hint, rfl⟩
  writeHint _ := ⟨_, .hint, rfl⟩
  uuid := trivial
  transactionId := trivial
  clock := trivial
  lakehouse id _ := ⟨_, .lakehouse id, rfl⟩
  limits t hAbout := ⟨_, (h t hAbout).lakehouse, rfl⟩
  rows t hAbout entry hMem := ⟨_, (h t hAbout).rows entry hMem, rfl⟩
  definition t c limits key data path id _ hTarget hDefinition := by
    rw [Change.path_of_definition hDefinition]
    exact ⟨_, .definition (Change.accepted_of_key (Change.key_of_target hTarget)).1 id, rfl⟩

/-- An operation stays among the keys of its lakehouse, if all that its transaction names are paths of
the catalog. -/
theorem Operation.asks_within {op : Operation Transaction}
    (h : ∀ t, op.about? = some t → t.running.Settled) :
    (op.program site).Asks (Request.Within site) :=
  (covers_within h).asks_program fun _ v _ _ => ⟨_, .root v, rfl⟩

theorem Operation.about?_map {τ υ : Type} (f : τ → υ) (op : Operation τ) :
    (op.map f).about? = op.about?.map f := by
  cases op <;> rfl

/-- A mutation places its definition at a path of the catalog. -/
theorem Mutation.catalogPath_of_place? {mutation : Mutation} {limits : KeyLimits} {key place : String}
    (hPlace : mutation.place? = some place) (hKey : mutation.change.key limits = .ok key) :
    CatalogPath place := by
  obtain ⟨⟨data, path⟩, hDefinition, hPlace⟩ := Option.bind_eq_some_iff.mp hPlace
  obtain ⟨id, -, rfl⟩ := Option.map_eq_some_iff.mp hPlace
  rw [Change.path_of_definition hDefinition]
  exact .definition (Change.accepted_of_key hKey).1 id

namespace System

/-- All that a transaction names are paths of the catalog, whatever led to it. -/
theorem Reachable.settled (hReach : Reachable site s) {h : Handle} (hMem : h ∈ s.handles) :
    h.transaction.running.Settled := by
  obtain ⟨d, past, hOrigin⟩ := hReach.origin (.running hMem)
  refine ⟨?_, fun entry hEntry => ?_⟩
  · obtain ⟨id, hPath⟩ := hOrigin.governs.made
    rw [hPath]
    exact .lakehouse id
  · have hGet : h.transaction.running.rows.get? entry.1 = some entry.2 :=
      (TextMap.get?_eq_some_iff _).mpr hEntry
    rcases exists_mutation_of_replay hOrigin.replayed hGet with hNone | ⟨mutation, -, hPlace, hKey⟩
    · rw [TextMap.get?_empty] at hNone
      cases hNone
    · exact mutation.catalogPath_of_place? hPlace hKey

/-- Every request that a client is about to make stays among the keys of its lakehouse. -/
theorem Reachable.within (hReach : Reachable site s) {client : Nat} {op : Operation Handle}
    {drawn : Option Uuid} {r : Request} {next : r.Answer → Program Reply}
    (hRun : s.runs client = some ⟨op, drawn, .request r next⟩) : r.Within site := by
  obtain ⟨published, hSound⟩ := hReach.sound
  have hAsks : ((op.map Handle.transaction).program site).Asks (Request.Within site) := by
    refine Operation.asks_within fun t hAbout => ?_
    rw [Operation.about?_map] at hAbout
    obtain ⟨h, hHandle, rfl⟩ := Option.map_eq_some_iff.mp hAbout
    exact Reachable.settled hReach ((Reachable.attributed hReach).runs client _ hRun h hHandle)
  have hKeeps : ((op.map Handle.transaction).program site).Keeps
      ⟨Honest site s.store drawn, Request.Within site, fun _ => True⟩ fun _ => True :=
    Asks.keeps hAsks fun _ => trivial
  exact ((keeps_request _ _).mp ((hSound.runs client _ hRun).reached.keeps hKeeps)).1

end System

end SnapshotCatalog
