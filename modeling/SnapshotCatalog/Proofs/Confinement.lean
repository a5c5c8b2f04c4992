import SnapshotCatalog.Proofs.KeyCodec
import SnapshotCatalog.Proofs.Listings
/-!
No path escapes a lakehouse. Whatever text is given as a path, it is refused before the store is asked for
anything, or the store is asked about a key below the directory of the lakehouse. That is said of what stores
that normalise keys look at: the names between slashes, of which none leads upwards. The paths that rows name
are texts like any others, so a root that somebody tampered with makes no difference.
-/
namespace SnapshotCatalog

open Program

/-! ### Names -/

namespace Path

/-- What a path names on its way, which are its segments without the empty ones. -/
def names (path : String) : List (List Char) := (segments path.toList).filter (!·.isEmpty)

/-- A path below a directory. Slashes around the directory do not count, and one without a name is the top. -/
def under (directory path : String) : String :=
  if Text.strip '/' directory = "" then path else Text.strip '/' directory ++ "/" ++ path

/-- The rules that a path keeps which is accepted. -/
structure Clean (path : String) : Prop where
  nonempty : path.toList ≠ []
  relative : path.toList.head? ≠ some '/'
  characters : ∀ c ∈ path.toList, c ≠ '\\' ∧ c ≠ '%' ∧ isControl c = false
  withoutDots : ∀ segment ∈ segments path.toList, segment ≠ ['.'] ∧ segment ≠ ['.', '.']

theorem clean_of_check {path : String} (h : check path = .ok ()) : Clean path := by
  have hFault := check_eq_ok_iff.mp h
  rw [fault?] at hFault
  -- The rules are asked for one by one, and none of them is broken.
  split_ifs at hFault with hEmpty hHead hBackslash hPercent hControl hDots
  refine ⟨fun hNil => hEmpty (by rw [hNil]; rfl), hHead, fun c hc => ⟨?_, ?_, ?_⟩,
    fun segment hSegment => ?_⟩
  · rintro rfl
    exact hBackslash (List.contains_iff_mem.mpr hc)
  · rintro rfl
    exact hPercent (List.contains_iff_mem.mpr hc)
  · rw [← Bool.not_eq_true]
    exact fun hBad => hControl (List.any_eq_true.mpr ⟨c, hc, hBad⟩)
  · have hPlain : isDots segment ≠ true := fun hBad =>
      hDots (List.any_eq_true.mpr ⟨segment, hSegment, hBad⟩)
    constructor
    · rintro rfl
      exact hPlain rfl
    · rintro rfl
      exact hPlain rfl

/-- A slash before a path or after it adds no name. -/
theorem filter_segments_slash_cons (cs : List Char) :
    (segments ('/' :: cs)).filter (!·.isEmpty) = (segments cs).filter (!·.isEmpty) := by
  rw [segments, if_pos rfl]
  rfl

theorem filter_segments_dropWhile (cs : List Char) :
    (segments (cs.dropWhile (· == '/'))).filter (!·.isEmpty) = (segments cs).filter (!·.isEmpty) := by
  induction cs with
  | nil => rfl
  | cons c rest ih =>
      by_cases hSlash : c = '/'
      · subst hSlash
        rw [filter_segments_slash_cons, ← ih]
        rfl
      · rw [List.dropWhile_cons_of_neg (by simpa using hSlash)]

theorem filter_segments_append_replicate (cs : List Char) (n : Nat) :
    (segments (cs ++ List.replicate n '/')).filter (!·.isEmpty) =
      (segments cs).filter (!·.isEmpty) := by
  induction n with
  | zero => rw [List.replicate_zero, List.append_nil]
  | succ n ih =>
      rw [List.replicate_succ', ← List.append_assoc, segments_below, List.filter_append, ih]
      exact List.append_nil _

theorem names_strip (text : String) : names (Text.strip '/' text) = names text := by
  obtain ⟨n, hDropped⟩ := Text.exists_dropTrailing '/' (text.toList.dropWhile (· == '/'))
  rw [names, Text.strip, String.toList_ofList, ← filter_segments_append_replicate _ n, ← hDropped,
    filter_segments_dropWhile, names]

theorem names_append_slash (front rest : String) :
    names (front ++ "/" ++ rest) = names front ++ names rest := by
  have hSlash : "/".toList = ['/'] := by decide
  rw [names, String.toList_append, String.toList_append, hSlash, List.append_assoc, List.singleton_append,
    segments_below, List.filter_append, names, names]

/-- Below a directory a path has the names of both. -/
theorem names_under (directory path : String) :
    names (under directory path) = names directory ++ names path := by
  rw [under]
  split
  · next hTop =>
    rw [← names_strip directory, hTop]
    rfl
  · rw [names_append_slash, names_strip]

theorem Clean.names_ne_nil {path : String} (h : Clean path) : names path ≠ [] := by
  cases hPath : path.toList with
  | nil => exact absurd hPath h.nonempty
  | cons c rest =>
      have hOther : c ≠ '/' := by
        rintro rfl
        exact h.relative (by rw [hPath]; rfl)
      rw [names, hPath, segments, if_neg hOther]
      split
      · exact List.cons_ne_nil _ _
      · exact List.cons_ne_nil _ _

/-- A clean path below a clean path is clean. -/
theorem Clean.append_slash {front rest : String} (h : Clean front) (hRest : Clean rest) :
    Clean (front ++ "/" ++ rest) := by
  have hSlash : "/".toList = ['/'] := by decide
  have hChars : (front ++ "/" ++ rest).toList = front.toList ++ '/' :: rest.toList := by
    rw [String.toList_append, String.toList_append, hSlash, List.append_assoc, List.singleton_append]
  refine ⟨?_, ?_, fun c hc => ?_, fun segment hSegment => ?_⟩
  · rw [hChars]
    exact List.append_ne_nil_of_left_ne_nil h.nonempty _
  · rw [hChars, List.head?_append_of_ne_nil _ h.nonempty]
    exact h.relative
  · rw [hChars, List.mem_append, List.mem_cons] at hc
    rcases hc with hc | rfl | hc
    · exact h.characters c hc
    · decide
    · exact hRest.characters c hc
  · rw [hChars, segments_below, List.mem_append] at hSegment
    rcases hSegment with hSegment | hSegment
    · exact h.withoutDots segment hSegment
    · exact hRest.withoutDots segment hSegment

end Path

namespace Site

variable {site : Site} {text path : String}

/-- A lakehouse resolves paths below the place that it was given. -/
theorem resolve_eq_under (hSite : below text = .ok site) (path : String) :
    site.resolve path = Path.under text path := by
  rw [below] at hSite
  rw [Path.under]
  split at hSite
  · next hTop =>
    cases hSite
    rw [if_pos hTop]
    rfl
  · next hNamed =>
    obtain ⟨_, -, hPlace⟩ := bind_eq_ok.mp hSite
    cases hPlace
    rw [if_neg hNamed]
    rfl

theorem clean_resolve (hSite : site.Accepted) (hPath : Path.Clean path) : Path.Clean (site.resolve path) := by
  rw [resolve]
  cases hDirectory : site.directory with
  | none => exact hPath
  | some directory => exact (Path.clean_of_check (hSite directory hDirectory)).append_slash hPath

end Site

/-- A key lies below the place of a lakehouse at a path: it is spelled as the two are, it keeps the rules that
paths keep, and it leads through the names of the place to at least one more. -/
structure Confined (text path key : String) : Prop where
  spelling : key = Path.under text path
  clean : Path.Clean key
  names : Path.names key = Path.names text ++ Path.names path
  further : Path.names path ≠ []

theorem Site.confined_resolve {site : Site} {text path : String} (hSite : below text = .ok site)
    (hCheck : Path.check path = .ok ()) : Confined text path (site.resolve path) := by
  have hPath := Path.clean_of_check hCheck
  have hSpelling := resolve_eq_under hSite path
  refine ⟨hSpelling, clean_resolve (accepted_of_below hSite) hPath, ?_, hPath.names_ne_nil⟩
  rw [hSpelling, Path.names_under]

/-! ### Accesses -/

/-- What an access may ask: calls about keys at the paths that it names, and for the empty beginning of a
listing one call about all keys of the lakehouse. -/
inductive Access.Touches (text : String) (a : Access) : Request → Prop
  | key {c : Storage.Call} {path : String} (hPath : path ∈ a.paths) (hKey : Confined text path c.key) :
      Touches text a (.call c)
  | everything (hAll : a = .list "") : Touches text a (.call (.list (Path.under text "")))

namespace Access

variable {site : Site} {text : String}

/-- Once its paths are accepted, an access asks about keys below the lakehouse. -/
theorem asks_ask_touches (hSite : Site.below text = .ok site) (a : Access)
    (hPaths : ∀ path ∈ a.paths, Path.check path = .ok ()) : (a.ask site).Asks (a.Touches text) := by
  have hCall {c : Storage.Call} {path : String} (hMem : path ∈ a.paths) (hKey : c.key = site.resolve path) :
      (Program.call c).Asks (a.Touches text) :=
    (asks_call c).mpr (.key hMem (hKey ▸ Site.confined_resolve hSite (hPaths path hMem)))
  cases a with
  | create path blob => exact (hCall List.mem_cons_self rfl).bind fun _ => asks_done _
  | overwrite path blob =>
      refine (hCall List.mem_cons_self rfl).bind fun outcome => ?_
      cases outcome with
      | written => exact asks_done _
      | alreadyExists => exact asks_fail _
  | read path => exact (hCall List.mem_cons_self rfl).bind fun _ => asks_done _
  | head path => exact (hCall List.mem_cons_self rfl).bind fun _ => asks_done _
  | contains path => exact (hCall List.mem_cons_self rfl).bind fun _ => asks_done _
  | delete paths =>
      refine Asks.bind (Site.asks_deleteKeys fun key hKey => ?_) fun _ => asks_done _
      obtain ⟨path, hMem, rfl⟩ := List.mem_map.mp hKey
      exact .key hMem (Site.confined_resolve hSite (hPaths path hMem))
  | list start =>
      have hAsked : (Program.call (.list (site.resolve start))).Asks
          (Access.Touches text (.list start)) := by
        by_cases hAll : start = ""
        · subst hAll
          rw [Site.resolve_eq_under hSite]
          exact (asks_call _).mpr (.everything rfl)
        · exact hCall (by rw [paths, if_neg hAll]; exact List.mem_cons_self) rfl
      exact hAsked.bind fun _ => asks_done _

theorem asks_touches (hSite : Site.below text = .ok site) (a : Access) :
    (a.program site).Asks (a.Touches text) := by
  rw [a.program_eq, site.mapM_key]
  cases hFind : a.paths.findSome? Path.fault? with
  | some fault => exact asks_fail _
  | none =>
      exact a.asks_ask_touches hSite fun path hMem =>
        Path.check_eq_ok_iff.mpr (List.findSome?_eq_none_iff.mp hFind path hMem)

end Access

/-! ### Operations of the catalog -/

/-- A kind of requests that covers what is asked about paths that a lakehouse accepts, and all requests that
are no calls. -/
structure CoversAccepted (site : Site) (kind : Request → Prop) : Prop where
  call : ∀ (c : Storage.Call) (path : String), Path.check path = .ok () → c.key = site.resolve path →
    kind (.call c)
  other : ∀ r, (∀ c, r ≠ .call c) → kind r

namespace CoversAccepted

variable {α : Type} {site : Site} {kind : Request → Prop} {op : Operation Transaction}

theorem coversChain (h : CoversAccepted site kind) : CoversChain site kind where
  get v := h.call (.get _) _ (site.check_of_key (site.key_root v)) rfl
  record _ := h.other _ nofun
  head v := h.call (.head _) _ (site.check_of_key (site.key_root v)) rfl

theorem asks_read (h : CoversAccepted site kind) (path : String) : (site.read path).Asks kind := by
  cases hCheck : Path.check path with
  | ok value => exact site.asks_read (h.call (.get _) path hCheck rfl)
  | error e =>
      rw [Site.read, Site.key, hCheck]
      exact asks_fail e

theorem asks_create (h : CoversAccepted site kind) (path : String) (blob : Storage.Blob) :
    (site.create path blob).Asks kind := by
  cases hCheck : Path.check path with
  | ok value => exact site.asks_create (h.call (.put _ _ _) path hCheck rfl)
  | error e =>
      rw [Site.create, Site.key, hCheck]
      exact asks_fail e

theorem asks_load [Definition α] (h : CoversAccepted site kind) (path : String) :
    (Definition.load site path : Program α).Asks kind :=
  (h.asks_read path).bind fun _ => asks_ofExcept _

theorem asks_loadLakehouse (h : CoversAccepted site kind) (path : String) :
    (LakehouseDef.load site path).Asks kind := by
  refine (h.asks_load path).bind fun d => ?_
  split
  · exact asks_fail _
  · exact asks_done _

theorem asks_look (h : CoversAccepted site kind) (t : Transaction)
    (question : KeyLimits → Root → Except Error α) : (Lakehouse.look site t question).Asks kind :=
  ((h.asks_loadLakehouse _).bind fun _ => asks_done _).bind fun _ => asks_ofExcept _

/-- What a row names is only a path, wherever the row comes from. -/
theorem asks_describe [Definition α] (h : CoversAccepted site kind) (t : Transaction)
    (question : KeyLimits → Root → Except Error (String × String)) :
    ((Lakehouse.look site t question).bind fun found =>
      (Definition.load site found.2 : Program α)).Asks kind :=
  (h.asks_look t question).bind fun found => h.asks_load found.2

theorem asks_query (h : CoversAccepted site kind) (t : Transaction) (q : Query) :
    (q.program site t).Asks kind := by
  cases q with
  | describeLakehouse => exact (h.asks_loadLakehouse _).replying _
  | showNamespaces => exact (h.asks_look t _).replying _
  | namespaceExists ns => exact (h.asks_look t _).replying _
  | describeNamespace ns => exact (h.asks_describe t _).replying _
  | showTables ns => exact (h.asks_look t _).replying _
  | tableExists ns table => exact (h.asks_look t _).replying _
  | describeTable ns table => exact (h.asks_describe t _).replying _

theorem asks_change (h : CoversAccepted site kind) (t : Transaction) (c : Change) :
    (c.program site t).Asks kind := by
  rw [c.program_eq]
  refine (h.asks_look t _).bind fun key => ?_
  rcases c.perform_cases with ⟨-, hEq⟩ | ⟨β, _, x, path, -, hEq⟩
  · rw [hEq]
    exact asks_done _
  · rw [hEq]
    refine Asks.request (h.other _ nofun) fun id => ?_
    refine ((h.asks_create (path id) _).bind fun outcome => ?_).bind fun _ => asks_done _
    cases outcome with
    | written => exact asks_done _
    | alreadyExists => exact asks_fail _

theorem asks_commit (h : CoversAccepted site kind) (t : Transaction) :
    (Lakehouse.commit site t).Asks kind := by
  have hPublish (version : Version) (d : LakehouseDef) (r : Root) :
      (Lakehouse.publish site version d r).Asks kind :=
    Lakehouse.asks_publish (h.other _ nofun) (fun _ => h.other _ nofun)
      (fun _ => h.call (.put _ _ _) _ (site.check_of_key (site.key_root version)) rfl)
      fun _ => h.call (.put _ _ _) _ (site.check_of_key site.key_hint) rfl
  refine (asks_ofExcept _).bind fun drafted => (h.asks_loadLakehouse _).bind fun d => ?_
  refine (hPublish _ d _).bind fun published => ?_
  cases published with
  | none => exact Asks.request (h.other _ nofun) fun _ => asks_fail _
  | some root => exact Asks.request (h.other _ nofun) fun _ => asks_done _

/-- An operation that is about no transaction asks about paths of its own making. -/
theorem covers (h : CoversAccepted site kind) (hAbout : op.about? = none) : Covers site kind op where
  chain := h.coversChain
  readHint := h.call (.get _) _ (site.check_of_key site.key_hint) rfl
  writeHint _ := h.call (.put _ _ _) _ (site.check_of_key site.key_hint) rfl
  uuid := h.other _ nofun
  transactionId := h.other _ nofun
  clock := h.other _ nofun
  lakehouse id _ := h.call (.put _ _ _) _ (DefinitionPath.check_ofLakehouse id) rfl
  limits _ hSome := nomatch hAbout.symm.trans hSome
  rows _ hSome := nomatch hAbout.symm.trans hSome
  definition _ _ _ _ _ _ _ hSome := nomatch hAbout.symm.trans hSome

/-- Every operation asks about accepted paths only, whatever its transaction holds and whatever is read. -/
theorem asks_program (h : CoversAccepted site kind) (op : Operation Transaction) :
    (op.program site).Asks kind := by
  have hAbsent (hAbout : op.about? = none) : (op.program site).Asks kind :=
    (h.covers hAbout).asks_program fun _ v _ _ =>
      h.call (.put _ _ _) _ (site.check_of_key (site.key_root v)) rfl
  cases op with
  | query t q => exact h.asks_query t q
  | change t c => exact (h.asks_change t c).replying _
  | commit t => exact (h.asks_commit t).replying _
  | create d => exact hAbsent rfl
  | begin isolation => exact hAbsent rfl
  | beginAtVersion version isolation => exact hAbsent rfl
  | latestVersion => exact hAbsent rfl
  | rootForVersion version => exact hAbsent rfl
  | rootBefore time => exact hAbsent rfl
  | history polls => exact hAbsent rfl
  | verify => exact hAbsent rfl

end CoversAccepted

/-- A call about a key below the place of a lakehouse, or no call. -/
def Request.Confined (text : String) (r : Request) : Prop :=
  ∀ c, r = .call c → ∃ path, SnapshotCatalog.Confined text path c.key

theorem coversAccepted_confined {site : Site} {text : String} (hSite : Site.below text = .ok site) :
    CoversAccepted site (Request.Confined text) where
  call c path hCheck hKey := by
    rintro _ ⟨⟩
    exact ⟨path, hKey ▸ Site.confined_resolve hSite hCheck⟩
  other r hOther c hCall := absurd hCall (hOther c)

/-- Wherever a lakehouse lies and whatever texts are given as paths, no path leads out of it. An access with a
path that is not accepted fails with an invalid argument before it asks for anything. Whatever an access asks
is about the key of one of its paths: the place of the lakehouse, a slash and the path, spelled as they are
given, without a segment of dots, a backslash, a percent sign, a control or a slash in front, so that it leads
through the names of the place to at least one more. Only the empty beginning of a listing asks about all keys
of the lakehouse, which are those that begin as its keys do. The operations of the catalog ask about such keys
only, also if the root of their transaction names any texts as paths and whatever they read. -/
theorem Site.no_path_escapes {site : Site} {text : String} (hSite : below text = .ok site) :
    (∀ (a : Access) (path : String), path ∈ a.paths → Path.check path ≠ .ok () →
      ∃ fault, a.program site = .fail (.invalidArgument (.path fault))) ∧
    (∀ a : Access, (a.program site).Asks (a.Touches text)) ∧
    (∀ op : Operation Transaction, (op.program site).Asks (Request.Confined text)) ∧
    ∀ key, Text.startsWith key (Path.under text "") = true ↔
      ∃ path, key = Path.under text path ∧ Path.names key = Path.names text ++ Path.names path := by
  refine ⟨fun a path => Access.program_of_mem, fun a => a.asks_touches hSite,
    (coversAccepted_confined hSite).asks_program, fun key => ?_⟩
  have hUnder (path : String) : Path.under text "" ++ path = Path.under text path := by
    rw [← resolve_eq_under hSite, ← resolve_eq_under hSite, site.resolve_eq path]
    rfl
  constructor
  · intro hBegins
    obtain ⟨path, rfl⟩ := Text.startsWith_iff_exists.mp hBegins
    rw [hUnder]
    exact ⟨path, rfl, Path.names_under text path⟩
  · rintro ⟨path, rfl, -⟩
    rw [← hUnder]
    exact Text.startsWith_append _ _

/-- A transaction at a root whose row of a namespace names a path that leads upwards. -/
def Transaction.tampered : Transaction :=
  .start ⟨0⟩ 0 .snapshot { Root.new "definition" with rows := .insert .empty "B===ns       " "../b/secret" }

/-- A store that logs its calls, with the definition of a lakehouse below `a` and an object beside it. -/
def Host.besideSecret : Host :=
  .start (.tracing { Storage.Tracing.empty with
    objects := .ofList [("a/definition", .bytes (LakehouseDef.encode ⟨9, 9, 9, 9, .empty⟩)),
      ("b/secret", .bytes (NamespaceDef.encode .blank))] }) 0

/-- The log of a store that keeps one. -/
def Host.log (h : Host) : List Storage.Operation :=
  match h.store.backend with
  | .tracing t => t.log
  | _ => []

/-- The row that was tampered with is refused as any path is, and only the definition of the lakehouse was
read by then. A path with an empty segment is accepted and leads to a key below the lakehouse. -/
theorem Site.no_path_escapes_tampered :
    Site.below "/a/" = .ok ⟨some "a"⟩ ∧
      (((Operation.query Transaction.tampered (.describeNamespace "ns")).program ⟨some "a"⟩).Asks
        (Request.Confined "/a/")) ∧
      ((Host.besideSecret.run (Lakehouse.describeNamespace ⟨some "a"⟩ .tampered "ns")).1.mapError
        Error.message = .error "invalid argument: path traversal not allowed: ../b/secret") ∧
      (Host.besideSecret.run (Lakehouse.describeNamespace ⟨some "a"⟩ .tampered "ns")).2.log =
        [.get "a/definition"] ∧
      (∃ fault, (Access.delete ["x", "../b/secret"]).program ⟨some "a"⟩ =
        .fail (.invalidArgument (.path fault))) ∧
      ((Access.read "x//y").program ⟨some "a"⟩).Asks ((Access.read "x//y").Touches "/a/") ∧
      Path.names (Path.under "/a/" "x//y") = [['a'], ['x'], ['y']] := by
  have hSite : Site.below "/a/" = .ok ⟨some "a"⟩ := rfl
  obtain ⟨hRefused, hAccesses, hOperations, -⟩ := no_path_escapes hSite
  refine ⟨hSite, hOperations _, by decide +kernel, by decide +kernel, ?_, hAccesses _, by decide +kernel⟩
  refine hRefused _ "../b/secret" (by simp [Access.paths]) ?_
  rw [Ne, Path.check_eq_ok_iff]
  decide +kernel

end SnapshotCatalog
