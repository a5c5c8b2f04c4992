import SnapshotCatalog.Proofs.FlatStore
import SnapshotCatalog.Proofs.Normalization
/-!
Listings of a bucket. Objects are written and read under the paths that they were given, but a listing
compares and shows the keys that the bucket keeps. A key is spelled as its path if the path holds no
character that is encoded, and then a listing shows the path. Any other path is listed, if at all, in a
spelling with a percent sign, under which nothing can be read; and a lakehouse whose directory is spelled
otherwise than its keys lists nothing.
-/
namespace SnapshotCatalog

open Storage (Blob Bucket)

/-! ### Keys that are spelled as their paths -/

namespace Path

/-- A character that a store keeps as it is. -/
def isKept (c : Char) : Bool := c.toNat < 0x80 && !isEncoded c

theorem flatMap_encodedChar_of_kept {cs : List Char} (h : ∀ c ∈ cs, isKept c = true) :
    cs.flatMap encodedChar = cs := by
  have hChar : ∀ c ∈ cs, encodedChar c = [c] := fun c hc => if_pos (h c hc)
  rw [List.flatMap_congr hChar, List.flatMap_singleton']

/-- Where no percent sign shows, no character was encoded. -/
theorem isKept_of_not_mem_percent {cs : List Char} (h : '%' ∉ cs.flatMap encodedChar) :
    ∀ c ∈ cs, isKept c = true := by
  intro c hc
  cases hKept : isKept c with
  | true => rfl
  | false =>
      have hEncoded : encodedChar c = (String.utf8EncodeChar c).flatMap encodedByte :=
        if_neg fun hPlain => Bool.false_ne_true (hKept.symm.trans hPlain)
      obtain ⟨b, rest, hBytes⟩ := List.exists_cons_of_ne_nil
        (String.utf8EncodeChar_ne_nil : String.utf8EncodeChar c ≠ [])
      refine absurd (List.mem_flatMap.mpr ⟨c, hc, ?_⟩) h
      rw [hEncoded, hBytes, List.flatMap_cons]
      exact List.mem_append_left _ List.mem_cons_self

theorem joinSegments_cons (first : List Char) {others : List (List Char)} (h : others ≠ []) :
    joinSegments (first :: others) = first ++ '/' :: joinSegments others := by
  cases others with
  | nil => exact absurd rfl h
  | cons second rest => rfl

theorem joinSegments_append {front back : List (List Char)} (hFront : front ≠ []) (hBack : back ≠ []) :
    joinSegments (front ++ back) = joinSegments front ++ '/' :: joinSegments back := by
  induction front with
  | nil => exact absurd rfl hFront
  | cons first others ih =>
      have hRest : others ++ back ≠ [] := List.append_ne_nil_of_right_ne_nil _ hBack
      rw [List.cons_append, joinSegments_cons first hRest]
      by_cases hNone : others = []
      · rw [hNone]
        rfl
      · rw [joinSegments_cons first hNone, ih hNone, List.append_assoc, List.cons_append]

theorem mem_joinSegments {list : List (List Char)} {segment : List Char} {c : Char}
    (hSegment : segment ∈ list) (hc : c ∈ segment) : c ∈ joinSegments list := by
  induction list with
  | nil => cases hSegment
  | cons first others ih =>
      by_cases hNone : others = []
      · subst hNone
        exact List.mem_singleton.mp hSegment ▸ hc
      · rw [joinSegments_cons first hNone]
        rcases List.mem_cons.mp hSegment with rfl | hSegment
        · exact List.mem_append_left _ hc
        · exact List.mem_append_right _ (List.mem_cons_of_mem _ (ih hSegment))

/-- A path is its own key if it has no empty segment and no character of it is encoded. -/
theorem key_of_kept {path : String}
    (h : ∀ segment ∈ segments path.toList, segment ≠ [] ∧ ∀ c ∈ segment, isKept c = true) :
    key path = path := by
  have hFilter : (segments path.toList).filter (!·.isEmpty) = segments path.toList := by
    rw [List.filter_eq_self]
    intro segment hMem
    simpa using (h segment hMem).1
  have hMap : keySegments path = segments path.toList := by
    rw [keySegments, hFilter]
    exact (List.map_congr_left fun segment hMem => flatMap_encodedChar_of_kept (h segment hMem).2).trans
      (List.map_id _)
  rw [key, hMap, joinSegments_segments, String.ofList_toList]

/-- A segment of a key without a percent sign is a segment of its path, and no character of it is
encoded. -/
theorem kept_of_mem_keySegments {path : String} {segment : List Char} (hMem : segment ∈ keySegments path)
    (hPercent : '%' ∉ segment) : segment ≠ [] ∧ ∀ c ∈ segment, isKept c = true := by
  obtain ⟨plain, hPlain, rfl⟩ := List.mem_map.mp hMem
  have hKept := isKept_of_not_mem_percent hPercent
  rw [flatMap_encodedChar_of_kept hKept]
  refine ⟨?_, hKept⟩
  simpa using (List.mem_filter.mp hPlain).2

/-- What a key begins with, up to a slash, is its own key if it holds no percent sign. -/
theorem key_of_front {path front rest : String} (hSegments : keySegments path ≠ [])
    (h : key path = front ++ "/" ++ rest) (hPercent : '%' ∉ front.toList) : key front = front := by
  have hSplit : keySegments path = segments front.toList ++ segments rest.toList := by
    have hList := congrArg String.toList h
    have hSlash : "/".toList = ['/'] := by decide
    rw [key, String.toList_ofList, String.toList_append, String.toList_append, hSlash,
      List.append_assoc, List.singleton_append] at hList
    rw [← segments_joinSegments hSegments slash_not_mem_keySegments, hList, segments_below]
  refine key_of_kept fun segment hMem => ?_
  have hSegment : segment ∈ keySegments path := hSplit ▸ List.mem_append_left _ hMem
  refine kept_of_mem_keySegments hSegment fun hc => hPercent ?_
  rw [← joinSegments_segments front.toList]
  exact mem_joinSegments hMem hc

/-- A path without empty segments is its own key if no percent sign shows in that. -/
theorem Tidy.key_eq_self {path : String} (h : Tidy path) (hPercent : '%' ∉ (key path).toList) :
    key path = path := by
  refine key_of_kept fun segment hMem => ⟨h segment hMem, isKept_of_not_mem_percent fun hc => hPercent ?_⟩
  rw [key, String.toList_ofList]
  refine mem_joinSegments (List.mem_map.mpr ⟨segment, List.mem_filter.mpr ⟨hMem, ?_⟩, rfl⟩) hc
  simpa using h segment hMem

/-- The directory part of a path stands before a slash. -/
theorem directory?_eq_some {path directory : String} (h : directory? path = some directory) :
    ∃ last, path = directory ++ "/" ++ last := by
  have hJoin := joinSegments_segments path.toList
  rw [← List.dropLast_append_getLast (segments_ne_nil path.toList)] at hJoin
  unfold directory? at h
  split at h
  · cases h
  · next front hFront =>
    cases h
    rw [joinSegments_append hFront (List.cons_ne_nil _ _)] at hJoin
    refine ⟨String.ofList ((segments path.toList).getLast (segments_ne_nil _)), ?_⟩
    have hSlash : "/".toList = ['/'] := by decide
    rw [← String.toList_inj]
    refine hJoin.symm.trans ?_
    simp [hSlash, joinSegments]

/-- A path that is accepted holds no percent sign. -/
theorem percent_not_mem_of_check {path : String} (h : check path = .ok ()) : '%' ∉ path.toList := by
  intro hMem
  have hFault : fault? path ≠ none := by
    have hPercent : path.toList.contains '%' = true := by simpa using hMem
    grind [fault?]
  exact hFault (check_eq_ok_iff.mp h)

end Path

/-- A listing of a bucket shows the keys that begin as it was asked, as long as it was asked without
percent signs. -/
theorem Storage.Bucket.lists_key {start path : String} (hStart : '%' ∉ start.toList)
    (hSegments : Path.keySegments path ≠ []) :
    lists start (Path.key path) = Text.startsWith (Path.key path) start := by
  rw [lists]
  cases hBegins : Text.startsWith (Path.key path) start with
  | false => rw [Bool.and_false]
  | true =>
      obtain ⟨rest, hRest⟩ := Text.startsWith_iff_exists.mp hBegins
      rw [Bool.and_true, isBelow]
      cases hDirectory : Path.directory? start with
      | none => rfl
      | some directory =>
          -- What the listing looks below is a directory that the key names as it is.
          obtain ⟨last, rfl⟩ := Path.directory?_eq_some hDirectory
          have hFront : Path.key path = directory ++ "/" ++ (last ++ rest) := by
            rw [hRest, String.append_assoc]
          have hPercent : '%' ∉ directory.toList := fun hMem => hStart (by simp [hMem])
          rw [Option.map_some, Option.getD_some, Path.key_of_front hSegments hFront hPercent, hFront,
            Text.startsWith_append, Bool.or_true]

namespace Site

variable {site : Site}

/-- The keys of a lakehouse are spelled as its directory is. -/
def Kept (site : Site) : Prop := ∀ directory, site.directory = some directory → Path.key directory = directory

/-- The place that a lakehouse was given was accepted. -/
def Accepted (site : Site) : Prop := ∀ directory, site.directory = some directory → Path.check directory = .ok ()

theorem accepted_of_below {text : String} (h : Site.below text = .ok site) : site.Accepted := by
  rw [below] at h
  split at h
  · cases h
    exact nofun
  · next hNonempty =>
    obtain ⟨_, hCheck, hSite⟩ := bind_eq_ok.mp h
    cases hSite
    rintro _ ⟨⟩
    exact hCheck

theorem percent_not_mem_resolve (hSite : site.Accepted) {path : String} (hPath : '%' ∉ path.toList) :
    '%' ∉ (site.resolve path).toList := by
  rw [resolve]
  cases hDirectory : site.directory with
  | none => exact hPath
  | some directory =>
      have hPercent := Path.percent_not_mem_of_check (hSite directory hDirectory)
      simp [hPath, hPercent]

theorem key_resolve (hSite : site.Accepted) (hKept : site.Kept) {path : String} (hPath : Path.Tidy path) :
    Path.key (site.resolve path) = site.resolve (Path.key path) := by
  cases hDirectory : site.directory with
  | none => simp only [resolve, hDirectory]
  | some directory =>
      have hBack : Path.keySegments path ≠ [] := top.keySegments_resolve_ne_nil hPath
      have hFront : Path.keySegments directory ≠ [] := by
        intro hNil
        have hEmpty : directory = "" := by rw [← hKept directory hDirectory, Path.key, hNil]; rfl
        have hCheck := Path.check_eq_ok_iff.mp (hSite directory hDirectory)
        rw [hEmpty] at hCheck
        exact absurd hCheck (by decide)
      have hSegments : Path.keySegments (site.resolve path) =
          Path.keySegments directory ++ Path.keySegments path := by
        have hSplit := site.segments_resolve path
        rw [segments, hDirectory] at hSplit
        simp only [Path.keySegments, hSplit, List.filter_append, List.map_append]
      calc Path.key (site.resolve path)
          = Path.key directory ++ "/" ++ Path.key path := by
            rw [Path.key, hSegments, Path.joinSegments_append hFront hBack, ← String.toList_inj]
            have hSlash : "/".toList = ['/'] := by decide
            simp [Path.key, hSlash]
        _ = site.resolve (Path.key path) := by rw [hKept directory hDirectory, resolve, hDirectory]

/-- A key of a path is spelled as a path of the lakehouse if the directory is, and then as the key of the
path within the lakehouse. -/
theorem key_resolve_eq_iff (hSite : site.Accepted) {path other : String} (hPath : Path.Tidy path) :
    Path.key (site.resolve path) = site.resolve other ↔ site.Kept ∧ Path.key path = other := by
  constructor
  · intro h
    have hKept : site.Kept := by
      intro directory hDirectory
      have hFront : Path.key (site.resolve path) = directory ++ "/" ++ other := by
        rw [h, resolve, hDirectory]
      exact Path.key_of_front (site.keySegments_resolve_ne_nil hPath) hFront
        (Path.percent_not_mem_of_check (hSite directory hDirectory))
    rw [key_resolve hSite hKept hPath] at h
    exact ⟨hKept, site.resolve_injective h⟩
  · rintro ⟨hKept, rfl⟩
    exact key_resolve hSite hKept hPath

end Site

/-! ### Hosts with a bucket -/

/-- A path that is accepted and has no empty segment. -/
structure Path.Proper (path : String) : Prop where
  check : Path.check path = .ok ()
  tidy : Path.Tidy path

instance (path : String) : Decidable (Path.Proper path) :=
  decidable_of_iff (Path.fault? path = none ∧ Path.Tidy path)
    ⟨fun h => ⟨Path.check_eq_ok_iff.mpr h.1, h.2⟩, fun h => ⟨Path.check_eq_ok_iff.mp h.1, h.2⟩⟩

/-- An access that creates, overwrites or deletes objects. -/
def Access.isChange : Access → Bool
  | .create _ _ | .overwrite _ _ | .delete _ => true
  | _ => false

/-- A host whose store is a bucket that keeps these objects of a lakehouse, under proper paths, and no
others. -/
def Host.Keeps (h : Host) (site : Site) (objects : TextMap Blob) : Prop :=
  ∃ b, h.store = .ofBackend (.bucket b) ∧
    TextMap.Mirrors (fun path => Path.key (site.resolve path)) Path.Proper objects b.objects

namespace Host

/-- What follows a call goes on with what the bucket answers, on a host with the bucket that it leaves. -/
theorem run_call_bucket {α : Type} {h : Host} {b : Bucket} (hStore : h.store = .ofBackend (.bucket b))
    (c : Storage.Call) (next : c.Value → Program α) :
    h.run ((Program.call c).bind next) =
      { h with store := .ofBackend (.bucket (Bucket.answer c b).2) }.run
        ((Program.ofExcept (Bucket.answer c b).1).bind next) := by
  show ((Program.ofExcept (answer (.call c) h).1).bind next).run answer (answer (.call c) h).2 = _
  rw [answer_backend hStore]
  rfl

namespace Keeps

variable {host : Host} {site : Site} {objects : TextMap Blob} {path : String}

/-- What is kept lies under a proper path. -/
theorem proper (h : host.Keeps site objects) (hStored : objects.contains path = true) :
    Path.Proper path := by
  obtain ⟨b, -, hKept⟩ := h
  obtain ⟨blob, hGet⟩ := Option.isSome_iff_exists.mp hStored
  exact hKept.owned path blob hGet

/-- Proper paths have places of their own. -/
theorem apart (site : Site) (path other : String) (h : Path.Proper path) (hOther : Path.Proper other)
    (hSame : Path.key (site.resolve path) = Path.key (site.resolve other)) : path = other :=
  site.eq_of_key_resolve h.tidy hOther.tidy hSame

theorem run_deleteKeys {α : Type} (h : host.Keeps site objects) {paths : List String}
    (hPaths : ∀ path ∈ paths, Path.Proper path) (next : Unit → Program α) :
    ∃ after : Host, after.Keeps site (paths.foldl TextMap.erase objects) ∧
      host.run ((Site.deleteKeys (paths.map site.resolve)).bind next) = after.run (next ()) := by
  induction paths generalizing host objects with
  | nil => exact ⟨host, h, rfl⟩
  | cons first rest ih =>
      obtain ⟨b, hStore, hKept⟩ := h
      have hFirst := hPaths first List.mem_cons_self
      have hBetween : Host.Keeps { host with store := .ofBackend (.bucket
          (Bucket.answer (.delete (site.resolve first)) b).2) } site (objects.erase first) :=
        ⟨_, rfl, hKept.erase (apart site) hFirst⟩
      obtain ⟨after, hAfter, hRun⟩ := ih hBetween fun path hMem => hPaths path (List.mem_cons_of_mem _ hMem)
      refine ⟨after, hAfter, ?_⟩
      rw [List.map_cons, Site.deleteKeys, Program.bind_eq, Program.bind_assoc, run_call_bucket hStore]
      exact hRun

/-- A change at proper paths answers what the finite map answers, and leaves a bucket that keeps what the
map becomes. -/
theorem change (h : host.Keeps site objects) {a : Access} (hChange : a.isChange = true)
    (hPaths : ∀ path ∈ a.paths, Path.Proper path) :
    (host.run (a.program site)).1 = (a.answer site objects).1 ∧
      (host.run (a.program site)).2.Keeps site (a.answer site objects).2 := by
  have hNone : a.paths.findSome? Path.fault? = none :=
    List.findSome?_eq_none_iff.mpr fun path hMem => Path.check_eq_ok_iff.mp (hPaths path hMem).check
  rw [a.program_eq, site.mapM_key, Access.answer, hNone]
  show (host.run (a.ask site)).1 = (a.perform site objects).1 ∧
    (host.run (a.ask site)).2.Keeps site (a.perform site objects).2
  obtain ⟨b, hStore, hKept⟩ := h
  cases a with
  | create path blob =>
      have hPath := hPaths path (List.mem_singleton_self path)
      rw [Access.ask, Program.bind_eq, run_call_bucket hStore, Bucket.answer, Access.perform,
        hKept.contains_eq hPath]
      by_cases hStored : objects.contains path = true
      · rw [if_pos ⟨rfl, hStored⟩, if_pos hStored]
        exact ⟨rfl, b, rfl, hKept⟩
      · rw [if_neg fun hBoth => hStored hBoth.2, if_neg hStored]
        exact ⟨rfl, _, rfl, hKept.insert (apart site) hPath blob⟩
  | overwrite path blob =>
      have hPath := hPaths path (List.mem_singleton_self path)
      have hMode : Storage.WriteMode.overwrite ≠ .createNew := by decide
      rw [Access.ask, Program.bind_eq, run_call_bucket hStore, Bucket.answer,
        if_neg fun hBoth => hMode hBoth.1]
      exact ⟨rfl, _, rfl, hKept.insert (apart site) hPath blob⟩
  | delete paths =>
      have hProper : ∀ path ∈ paths, Path.Proper path := hPaths
      obtain ⟨after, hAfter, hRun⟩ := run_deleteKeys ⟨b, hStore, hKept⟩ hProper
        fun _ => (pure Access.Reply.done : Program Access.Reply)
      rw [TextMap.foldl_erase] at hAfter
      rw [Access.ask, Program.bind_eq, hRun]
      exact ⟨rfl, hAfter⟩
  | read | head | contains | list => cases hChange

/-- Changes one after another, by induction on them. -/
theorem changes (h : host.Keeps site objects) {accesses : List Access}
    (hChanges : ∀ a ∈ accesses, a.isChange = true ∧ ∀ path ∈ a.paths, Path.Proper path) :
    (Access.runAll site accesses host).1 = (Access.answerAll site accesses objects).1 ∧
      (Access.runAll site accesses host).2.Keeps site (Access.answerAll site accesses objects).2 := by
  induction accesses generalizing host objects with
  | nil => exact ⟨rfl, h⟩
  | cons a rest ih =>
      obtain ⟨hIs, hPaths⟩ := hChanges a List.mem_cons_self
      obtain ⟨hReply, hBetween⟩ := h.change hIs hPaths
      obtain ⟨hReplies, hAfter⟩ := ih hBetween fun other hMem => hChanges other (List.mem_cons_of_mem _ hMem)
      exact ⟨congrArg₂ List.cons hReply hReplies, hAfter⟩

/-- What is kept can be read under its path. -/
theorem run_read (h : host.Keeps site objects) {blob : Blob} (hGet : objects.get? path = some blob) :
    (host.run (site.read path)).1 = .ok blob := by
  have hPath : Path.Proper path := h.proper (by rw [TextMap.contains, hGet]; rfl)
  obtain ⟨b, hStore, hKept⟩ := h
  have hYields : Yields answer (fun h => h.store = .ofBackend (.bucket b))
      (Program.call (.get (site.resolve path))) (.ok blob) := by
    apply yields_call
    intro s hs
    rw [answer_backend hs, Storage.Backend.answer, Bucket.answer, hKept.same path hPath, hGet]
    exact ⟨rfl, rfl⟩
  rw [Site.read, site.key_of_check hPath.check]
  exact (hYields host hStore).1

/-- A listing shows the keys that are kept, in byte order, where they are spelled as paths of the lakehouse
that begin as it was asked. -/
theorem run_list (h : host.Keeps site objects) (hSite : site.Accepted) {start : String}
    (hStart : start = "" ∨ Path.check start = .ok ()) :
    ∃ listed, (host.run (site.list start)).1 = .ok listed ∧ listed.Pairwise Text.Before ∧
      ∀ path, path ∈ listed ↔ (∃ rest, path = start ++ rest) ∧ site.Kept ∧
        ∃ stored, objects.contains stored = true ∧ Path.key stored = path := by
  have hKey (stored : String) (hStored : objects.contains stored = true) : Path.Proper stored :=
    h.proper hStored
  obtain ⟨b, hStore, hKept⟩ := h
  have hListStart : site.listStart start = .ok (site.resolve start) := by
    rw [Site.listStart]
    split
    · next hEmpty => rw [hEmpty, Site.keyStart]
    · next hNonempty => exact site.key_of_check (hStart.resolve_left hNonempty)
  have hPercent : '%' ∉ (site.resolve start).toList := by
    refine Site.percent_not_mem_resolve hSite ?_
    rcases hStart with rfl | hCheck
    · decide
    · exact Path.percent_not_mem_of_check hCheck
  -- The bucket finds what a store in memory with the same keys would find.
  have hFound : (b.objects.entries.filter fun entry => Bucket.lists (site.resolve start) entry.1) =
      b.objects.scan (site.resolve start) := by
    rw [TextMap.scan_eq_withStart, TextMap.withStart]
    refine List.filter_congr fun entry hMem => ?_
    have hContains : b.objects.contains entry.1 = true :=
      b.objects.mem_keys_iff_contains.mp (List.mem_map_of_mem hMem)
    obtain ⟨stored, hStored, hPlace⟩ := (hKept.contains_iff _).mp hContains
    rw [← hPlace]
    exact Bucket.lists_key hPercent (site.keySegments_resolve_ne_nil (hKey stored hStored).tidy)
  have hSorted := (site.objects b.objects).sorted_keys.filter fun path => Text.startsWith path start
  refine ⟨_, ?_, hSorted, fun path => ?_⟩
  · rw [Site.list, hListStart, Program.bind_eq, Program.ofExcept_ok, Program.done_bind, Program.bind_eq,
      run_call_bucket hStore, Bucket.answer, hFound, ← Key.sort_of_sorted hSorted,
      ← site.paths_of_listing]
    rfl
  · rw [List.mem_filter, (site.objects b.objects).mem_keys_iff_contains, site.contains_objects,
      hKept.contains_iff, Text.startsWith_iff_exists, and_comm]
    refine and_congr_right fun _ => ?_
    constructor
    · rintro ⟨stored, hStored, hSame⟩
      obtain ⟨hSpelled, hPath⟩ := (Site.key_resolve_eq_iff hSite (hKey stored hStored).tidy).mp hSame
      exact ⟨hSpelled, stored, hStored, hPath⟩
    · rintro ⟨hSpelled, stored, hStored, hPath⟩
      exact ⟨stored, hStored, (Site.key_resolve_eq_iff hSite (hKey stored hStored).tidy).mpr ⟨hSpelled, hPath⟩⟩

end Keeps

/-- A path with a percent sign cannot be read. -/
theorem run_read_percent (host : Host) (site : Site) {path : String} (h : '%' ∈ path.toList) :
    ∃ fault, (host.run (site.read path)).1 = .error (.invalidArgument (.path fault)) := by
  have hRefused : Path.fault? path ≠ none := fun hNone =>
    Path.percent_not_mem_of_check (Path.check_eq_ok_iff.mpr hNone) h
  obtain ⟨fault, hFault⟩ := Option.ne_none_iff_exists'.mp hRefused
  refine ⟨fault, ?_⟩
  rw [Site.read, site.key_eq, hFault]
  rfl

end Host

/-- Over a bucket that was empty at first, changes at proper paths answer as on a finite map from paths to
objects. A listing then shows, in byte order, the keys of the stored paths where they begin as it was
asked, or nothing if the directory of the lakehouse is not its own key. So a stored path is listed exactly
if it is its own key, and a key that is listed can be read exactly if it holds no percent sign. -/
theorem Site.lists_keys {site : Site} {directory : String} (hSite : Site.below directory = .ok site)
    {host : Host} (hStore : host.store = .ofBackend (.bucket .empty)) {changes : List Access}
    (hChanges : ∀ a ∈ changes, a.isChange = true ∧ ∀ path ∈ a.paths, Path.Proper path) {start : String}
    (hStart : start = "" ∨ Path.check start = .ok ()) :
    let ran := Access.runAll site changes host
    let expected := Access.answerAll site changes .empty
    ran.1 = expected.1 ∧ ∃ listed, (ran.2.run (site.list start)).1 = .ok listed ∧
      listed.Pairwise Text.Before ∧
      (∀ path, path ∈ listed ↔ (∃ rest, path = start ++ rest) ∧ site.Kept ∧
        ∃ stored, expected.2.contains stored = true ∧ Path.key stored = path) ∧
      (∀ path, expected.2.contains path = true →
        (path ∈ listed ↔ (∃ rest, path = start ++ rest) ∧ site.Kept ∧ Path.key path = path)) ∧
      ∀ path ∈ listed, if '%' ∈ path.toList
        then ∃ fault, (ran.2.run (site.read path)).1 = .error (.invalidArgument (.path fault))
        else ∃ blob, expected.2.get? path = some blob ∧ (ran.2.run (site.read path)).1 = .ok blob := by
  intro ran expected
  have hEmpty : host.Keeps site .empty := ⟨_, hStore, .empty _ _⟩
  obtain ⟨hReplies, hKeeps⟩ := hEmpty.changes hChanges
  obtain ⟨listed, hList, hSorted, hListed⟩ := hKeeps.run_list (accepted_of_below hSite) hStart
  refine ⟨hReplies, listed, hList, hSorted, hListed, fun path hStored => ?_, fun path hMem => ?_⟩
  · rw [hListed path]
    refine and_congr_right fun _ => and_congr_right fun _ => ⟨?_, fun hSame => ⟨path, hStored, hSame⟩⟩
    rintro ⟨stored, hOther, rfl⟩
    have hPercent := Path.percent_not_mem_of_check (hKeeps.proper hStored).check
    have hSame := (hKeeps.proper hOther).tidy.key_eq_self hPercent
    rw [hSame, hSame]
  · obtain ⟨-, -, stored, hStored, rfl⟩ := (hListed path).mp hMem
    split
    · next hPercent => exact ran.2.run_read_percent site hPercent
    · next hPercent =>
      obtain ⟨blob, hGet⟩ := Option.isSome_iff_exists.mp hStored
      rw [(hKeeps.proper hStored).tidy.key_eq_self hPercent]
      exact ⟨blob, hGet, hKeeps.run_read hGet⟩

/-- A lakehouse below directories. -/
def Site.nested : Site := ⟨some "a/b"⟩

/-- Objects with a name beyond ASCII, in a directory, and with a name that is deleted again. -/
def Access.encodedChanges : List Access :=
  [.create "é" (.bytes [1]), .create "x" (.bytes [2]), .overwrite "d/y" (.bytes [3]), .delete ["x"]]

theorem Site.lists_keys_encoded : Site.below "a/b/" = .ok nested ∧ ∃ listed,
    ((Access.runAll nested Access.encodedChanges (.start (.bucket .empty) 0)).2.run (nested.list "")).1 =
      .ok listed ∧ listed.Pairwise Text.Before ∧
    "%C3%A9" ∈ listed ∧ "é" ∉ listed ∧ "x" ∉ listed ∧ "d/y" ∈ listed := by
  have hSite : Site.below "a/b/" = .ok nested := rfl
  have hChanges : ∀ a ∈ Access.encodedChanges,
      a.isChange = true ∧ ∀ path ∈ a.paths, Path.Proper path := by decide +kernel
  have hKept : nested.Kept := by
    rintro _ ⟨⟩
    decide +kernel
  have hStored : (Access.answerAll nested Access.encodedChanges .empty).2.keys = ["d/y", "é"] := by
    decide +kernel
  obtain ⟨-, listed, hList, hSorted, hListed, -, -⟩ := lists_keys hSite
    (rfl : (Host.start (.bucket .empty) 0).store = .ofBackend (.bucket .empty)) hChanges (.inl rfl)
  simp only [← TextMap.mem_keys_iff_contains, hStored] at hListed
  have hOther {path : String} (hPath : ∀ stored ∈ ["d/y", "é"], Path.key stored ≠ path) :
      path ∉ listed := by
    intro hMem
    obtain ⟨-, -, stored, hMem, hKey⟩ := (hListed path).mp hMem
    exact hPath stored hMem hKey
  refine ⟨hSite, listed, hList, hSorted, ?_, hOther (by decide +kernel), hOther (by decide +kernel), ?_⟩
  · exact (hListed _).mpr ⟨⟨"%C3%A9", by decide⟩, hKept, "é", by decide, by decide +kernel⟩
  · exact (hListed _).mpr ⟨⟨"d/y", by decide⟩, hKept, "d/y", by decide, by decide +kernel⟩

/-- An object is written under a path that is not in the listing of its own path, and the listing of all
paths shows one that cannot be read. -/
theorem Site.list_omits_written : Path.Proper "é" ∧ ∃ host : Host,
    Access.runAll .top [.create "é" (.bytes [1])] (.start (.bucket .empty) 0) =
        ([.ok (.outcome .written)], host) ∧
      (∃ listed, (host.run (top.list "é")).1 = .ok listed ∧ "é" ∉ listed) ∧
      ∃ listed, (host.run (top.list "")).1 = .ok listed ∧ "%C3%A9" ∈ listed ∧
        (host.run (top.read "%C3%A9")).1 =
          .error (.invalidArgument (.path (.percent "%C3%A9"))) := by
  have hProper : Path.Proper "é" := by decide +kernel
  have hEmpty : (Host.start (.bucket .empty) 0).Keeps top .empty := ⟨_, rfl, .empty _ _⟩
  obtain ⟨hReply, hKeeps⟩ := hEmpty.change (a := .create "é" (.bytes [1])) rfl fun path hMem =>
    List.mem_singleton.mp hMem ▸ hProper
  generalize hRun : (Host.start (.bucket .empty) 0).run
    ((Access.create "é" (.bytes [1])).program top) = ran at hReply hKeeps
  have hStored : ((Access.create "é" (.bytes [1])).answer top .empty).2.keys = ["é"] := by decide +kernel
  have hTop : top.Accepted := nofun
  obtain ⟨own, hOwn, -, hListed⟩ := hKeeps.run_list hTop (.inr hProper.check)
  obtain ⟨all, hAll, -, hEvery⟩ := hKeeps.run_list hTop (.inl rfl)
  simp only [← TextMap.mem_keys_iff_contains, hStored, List.mem_singleton] at hListed hEvery
  refine ⟨hProper, ran.2, ?_, ⟨own, hOwn, fun hMem => ?_⟩, all, hAll, ?_, ?_⟩
  · have hFirst : ran.1 = .ok (.outcome .written) := hReply
    rw [Access.runAll, inTurn, hRun, ← hFirst]
    rfl
  · obtain ⟨-, -, stored, rfl, hKey⟩ := (hListed _).mp hMem
    exact absurd hKey (by decide +kernel)
  · exact (hEvery _).mpr ⟨⟨"%C3%A9", by decide⟩, nofun, "é", rfl, by decide +kernel⟩
  · have hFault : Path.fault? "%C3%A9" = some (.percent "%C3%A9") := by decide +kernel
    rw [Site.read, top.key_eq, hFault]
    rfl

end SnapshotCatalog
