import SnapshotCatalog.Proofs.Objects
import SnapshotCatalog.Proofs.StillStore
/-!
A lakehouse in a store that keeps keys as they are is a finite map from paths to objects. Every access has
all its paths checked before it asks for anything, and then answers what the map answers and leaves behind
what the map becomes, over a store in memory as over one that logs its calls.
-/
namespace SnapshotCatalog

open Storage (Memory Tracing Blob WriteOutcome ObjectMeta)

/-! ### Stores that keep keys as they are -/

/-- The store of a host is in memory, or it logs its calls and refuses none, and it holds these objects. -/
inductive Host.Holds (h : Host) (m : Memory) : Prop
  | memory (hStore : h.store = .ofBackend (.memory m))
  | tracing (t : Tracing) (hStore : h.store = .ofBackend (.tracing t)) (hObjects : t.objects = m)
      (hRefusals : t.refusals = [])

namespace Host.Holds

variable {host : Host} {m : Memory}

theorem answer (h : host.Holds m) (c : Storage.Call) :
    (Host.answer (.call c) host).1 = (Memory.answer c m).1 ∧
      (Host.answer (.call c) host).2.Holds (Memory.answer c m).2 := by
  cases h with
  | memory hStore =>
      rw [Host.answer_call hStore]
      exact ⟨rfl, .memory rfl⟩
  | tracing t hStore hObjects hRefusals =>
      subst hObjects
      rw [Host.answer_backend hStore, Storage.Backend.answer, Storage.Tracing.answer_eq hRefusals]
      exact ⟨rfl, .tracing _ rfl rfl hRefusals⟩

/-- What follows a call goes on with what memory answers, over a store that holds what it leaves. -/
theorem run_call {α : Type} (h : host.Holds m) (c : Storage.Call) (next : c.Value → Program α) :
    ∃ after : Host, after.Holds (Memory.answer c m).2 ∧
      host.run ((Program.call c).bind next) =
        after.run ((Program.ofExcept (Memory.answer c m).1).bind next) := by
  obtain ⟨hReply, hAfter⟩ := h.answer c
  refine ⟨_, hAfter, ?_⟩
  rw [← hReply]
  rfl

theorem run_deleteKeys {α : Type} (h : host.Holds m) (keys : List String) (next : Unit → Program α) :
    ∃ after : Host, after.Holds (keys.foldl TextMap.erase m) ∧
      host.run ((Site.deleteKeys keys).bind next) = after.run (next ()) := by
  induction keys generalizing host m with
  | nil => exact ⟨host, h, rfl⟩
  | cons key rest ih =>
      rw [Site.deleteKeys, Program.bind_eq, Program.bind_assoc]
      obtain ⟨between, hBetween, hRun⟩ := h.run_call (.delete key) fun _ =>
        (Site.deleteKeys rest).bind next
      obtain ⟨after, hAfter, hRest⟩ := ih hBetween
      exact ⟨after, hAfter, hRun.trans hRest⟩

end Host.Holds

/-! ### Accesses -/

/-- One access to the objects of a lakehouse. -/
inductive Access where
  | create (path : String) (blob : Blob)
  | overwrite (path : String) (blob : Blob)
  | read (path : String)
  | head (path : String)
  | contains (path : String)
  | delete (paths : List String)
  | list (start : String)

namespace Access

/-- What an access answers when it does not fail. -/
inductive Reply where
  | outcome (value : WriteOutcome)
  | done
  | blob (value : Blob)
  | found (value : Option ObjectMeta)
  | truth (value : Bool)
  | paths (list : List String)
  deriving DecidableEq

def program (site : Site) : Access → Program Reply
  | .create path blob => return .outcome (← site.create path blob)
  | .overwrite path blob => do
    site.overwrite path blob
    return .done
  | .read path => return .blob (← site.read path)
  | .head path => return .found (← site.head path)
  | .contains path => return .truth (← site.contains path)
  | .delete paths => do
    site.delete paths
    return .done
  | .list start => return .paths (← site.list start)

/-- The paths that an access names. The empty beginning of a listing stands for all paths and names none. -/
def paths : Access → List String
  | .create path _ => [path]
  | .overwrite path _ => [path]
  | .read path => [path]
  | .head path => [path]
  | .contains path => [path]
  | .delete paths => paths
  | .list start => if start = "" then [] else [start]

/-- What a finite map from paths to objects answers to an access whose paths are accepted, and what it is
from then on. -/
def perform (site : Site) (objects : TextMap Blob) : Access → Except Error Reply × TextMap Blob
  | .create path blob =>
    if objects.contains path then (.ok (.outcome .alreadyExists), objects)
    else (.ok (.outcome .written), objects.insert path blob)
  | .overwrite path blob => (.ok .done, objects.insert path blob)
  | .read path =>
    match objects.get? path with
    | some blob => (.ok (.blob blob), objects)
    | none => (.error (Storage.noObject (site.resolve path)), objects)
  | .head path =>
    (.ok (.found ((objects.get? path).map fun blob => ⟨site.resolve path, blob.size⟩)), objects)
  | .contains path => (.ok (.truth (objects.contains path)), objects)
  | .delete paths => (.ok .done, objects.without paths)
  | .list start => (.ok (.paths (objects.keys.filter fun path => Text.startsWith path start)), objects)

/-- What a finite map from paths to objects answers to an access, and what it is from then on. A path that
is not accepted, wherever it stands among others, is all that counts. -/
def answer (site : Site) (objects : TextMap Blob) (a : Access) : Except Error Reply × TextMap Blob :=
  match a.paths.findSome? Path.fault? with
  | some fault => (.error (.invalidArgument (.path fault)), objects)
  | none => a.perform site objects

/-- What an access does once its paths are accepted. -/
def ask (site : Site) : Access → Program Reply
  | .create path blob => do
    let outcome ← Program.call (.put (site.resolve path) blob .createNew)
    return .outcome outcome
  | .overwrite path blob => do
    match ← Program.call (.put (site.resolve path) blob .overwrite) with
    | .written => return .done
    | .alreadyExists => .fail (.storageWrite (.overwriteRefused path) none)
  | .read path => do
    let blob ← Program.call (.get (site.resolve path))
    return .blob blob
  | .head path => do
    let found ← Program.call (.head (site.resolve path))
    return .found found
  | .contains path => do
    let found ← Program.call (.head (site.resolve path))
    return .truth found.isSome
  | .delete paths => do
    Site.deleteKeys (paths.map site.resolve)
    return .done
  | .list start => do
    let found ← Program.call (.list (site.resolve start))
    return .paths (Key.sort (found.filterMap fun object => Text.after? site.keyStart object.key))

end Access

theorem Site.key_eq (site : Site) (path : String) :
    site.key path = match Path.fault? path with
      | some fault => .error (.invalidArgument (.path fault))
      | none => .ok (site.resolve path) := by
  rw [key, Path.check]
  cases Path.fault? path with
  | none => rfl
  | some fault => rfl

/-- Paths are resolved all or none, and the first that is not accepted is to blame. -/
theorem Site.mapM_key (site : Site) (paths : List String) :
    paths.mapM site.key = match paths.findSome? Path.fault? with
      | some fault => .error (.invalidArgument (.path fault))
      | none => .ok (paths.map site.resolve) := by
  induction paths with
  | nil => rfl
  | cons first rest ih =>
      rw [List.mapM_cons, site.key_eq, ih, List.findSome?_cons]
      cases Path.fault? first with
      | some fault => rfl
      | none =>
          cases rest.findSome? Path.fault? with
          | some fault => rfl
          | none => rfl

section Checking

variable {β : Type} (site : Site)

theorem Site.keys_bind (paths : List String) (next : List String → Program β) :
    (Program.ofExcept (paths.mapM site.key)).bind next =
      (Program.ofExcept (paths.mapM site.key)).bind fun _ => next (paths.map site.resolve) := by
  rw [site.mapM_key]
  cases paths.findSome? Path.fault? with
  | some fault => rfl
  | none => rfl

theorem Site.key_bind (path : String) (next : String → Program β) :
    (Program.ofExcept (site.key path)).bind next =
      (Program.ofExcept ([path].mapM site.key)).bind fun _ => next (site.resolve path) := by
  rw [site.mapM_key, site.key_eq, List.findSome?_singleton]
  cases Path.fault? path with
  | some fault => rfl
  | none => rfl

theorem Site.listStart_bind (start : String) (next : String → Program β) :
    (Program.ofExcept (site.listStart start)).bind next =
      (Program.ofExcept ((Access.list start).paths.mapM site.key)).bind fun _ =>
        next (site.resolve start) := by
  rw [Site.listStart, Access.paths]
  split
  · next hEmpty =>
      rw [hEmpty]
      rfl
  · exact site.key_bind start next

end Checking

namespace Access

variable {site : Site}

/-- Every access has all its paths checked before it asks for anything. -/
theorem program_eq (a : Access) :
    a.program site = (Program.ofExcept (a.paths.mapM site.key)).bind fun _ => a.ask site := by
  cases a with
  | overwrite path blob =>
      simp only [program, Site.overwrite, ask, paths, site.key_bind, Program.bind_eq, Program.bind_assoc]
      -- Both sides make the same call, and look at its outcome in two steps or in one.
      congr 2
      funext _
      congr 1
      funext outcome
      cases outcome with
      | written => rfl
      | alreadyExists => rfl
  | contains path =>
      simp only [program, Site.contains, Site.head, ask, paths, site.key_bind, Program.bind_eq,
        Program.bind_assoc]
      rfl
  | delete paths =>
      simp only [program, Site.delete, ask, Program.bind_eq, Program.bind_assoc]
      exact site.keys_bind paths _
  | list start =>
      simp only [program, Site.list, ask, site.listStart_bind, Program.bind_eq, Program.bind_assoc]
      rfl
  | create | read | head =>
      simp only [program, Site.create, Site.read, Site.head, ask, paths, site.key_bind, Program.bind_eq,
        Program.bind_assoc]

end Access

/-- What ran over a store that held `m` answered as expected and left of the objects of the lakehouse what is
expected, and of everything else all. -/
def Site.Acts {β : Type} (site : Site) (m : Memory) (ran : β × Host)
    (expected : β × TextMap Blob) : Prop :=
  ran.1 = expected.1 ∧
    ∃ after, ran.2.Holds after ∧ site.objects after = expected.2 ∧ site.Spares m after

namespace Host.Holds

variable {site : Site} {host : Host} {m : Memory}

theorem acts_same {β : Type} (h : host.Holds m) (reply : β) :
    site.Acts m (reply, host) (reply, site.objects m) :=
  ⟨rfl, m, h, rfl, .refl m⟩

/-- A call and what follows it act as expected if what follows does, from what memory answers. -/
theorem acts_call {α : Type} {c : Storage.Call} {next : c.Value → Program α}
    {expected : Except Error α × TextMap Blob} (h : host.Holds m)
    (hNext : ∀ after : Host, after.Holds (Memory.answer c m).2 →
      site.Acts m (after.run ((Program.ofExcept (Memory.answer c m).1).bind next)) expected) :
    site.Acts m (host.run ((Program.call c).bind next)) expected := by
  obtain ⟨after, hAfter, hRun⟩ := h.run_call c next
  rw [hRun]
  exact hNext after hAfter

/-- What an access does once its paths are accepted is what the map does. -/
theorem acts_ask (h : host.Holds m) (a : Access) :
    site.Acts m (host.run (a.ask site)) (a.perform site (site.objects m)) := by
  cases a with
  | create path blob =>
      apply h.acts_call
      intro after hAfter
      rw [Access.perform, site.contains_objects]
      by_cases hStored : m.contains (site.resolve path) = true
      · rw [Memory.answer, if_pos ⟨rfl, hStored⟩] at hAfter ⊢
        rw [if_pos hStored]
        exact hAfter.acts_same _
      · rw [Memory.answer, if_neg fun h => hStored h.2] at hAfter ⊢
        rw [if_neg hStored]
        exact ⟨rfl, _, hAfter, site.objects_insert m path blob, Site.spares_insert m path blob⟩
  | overwrite path blob =>
      apply h.acts_call
      intro after hAfter
      have hMode : Storage.WriteMode.overwrite ≠ .createNew := by decide
      rw [Memory.answer, if_neg fun h => hMode h.1] at hAfter ⊢
      exact ⟨rfl, _, hAfter, site.objects_insert m path blob, Site.spares_insert m path blob⟩
  | read path =>
      apply h.acts_call
      intro after hAfter
      rw [Memory.answer_get_snd] at hAfter
      rw [Access.perform, site.get?_objects, Memory.answer]
      cases m.get? (site.resolve path) with
      | some blob => exact hAfter.acts_same _
      | none => exact hAfter.acts_same _
  | head path =>
      apply h.acts_call
      intro after hAfter
      rw [Access.perform, site.get?_objects]
      exact hAfter.acts_same _
  | contains path =>
      apply h.acts_call
      intro after hAfter
      rw [Access.perform, site.contains_objects, TextMap.contains, ← Option.isSome_map]
      exact hAfter.acts_same _
  | delete paths =>
      obtain ⟨after, hAfter, hRun⟩ := h.run_deleteKeys (paths.map site.resolve) fun _ =>
        pure Access.Reply.done
      rw [Access.ask, Program.bind_eq, hRun]
      exact ⟨rfl, _, hAfter, site.objects_eraseAll m paths, Site.spares_eraseAll m paths⟩
  | list start =>
      apply h.acts_call
      intro after hAfter
      have hSorted := (site.objects m).sorted_keys.filter fun path => Text.startsWith path start
      -- The store lists in byte order already, so sorting the paths changes nothing.
      rw [Memory.answer, Access.perform, ← Key.sort_of_sorted hSorted, ← site.paths_of_listing]
      exact hAfter.acts_same _

/-- Every access acts as a finite map from paths to objects does. -/
theorem acts_access (h : host.Holds m) (a : Access) :
    site.Acts m (host.run (a.program site)) (a.answer site (site.objects m)) := by
  rw [a.program_eq, site.mapM_key, Access.answer]
  cases a.paths.findSome? Path.fault? with
  | some fault => exact h.acts_same _
  | none => exact h.acts_ask a

end Host.Holds

/-- Takes steps one after another and gathers what they answer. -/
def inTurn {α β σ : Type} (step : α → σ → β × σ) : List α → σ → List β × σ
  | [], s => ([], s)
  | a :: rest, s =>
    let (reply, s) := step a s
    let (replies, s) := inTurn step rest s
    (reply :: replies, s)

namespace Access

/-- Runs accesses one after another. -/
def runAll (site : Site) : List Access → Host → List (Except Error Reply) × Host :=
  inTurn fun a h => h.run (a.program site)

/-- What a finite map from paths to objects answers to accesses one after another. -/
def answerAll (site : Site) : List Access → TextMap Blob → List (Except Error Reply) × TextMap Blob :=
  inTurn fun a objects => a.answer site objects

end Access

/-- Accesses one after another act as on one map, by induction on the accesses. -/
theorem Host.Holds.acts_runAll {site : Site} {host : Host} {m : Memory} (h : host.Holds m)
    (accesses : List Access) :
    site.Acts m (Access.runAll site accesses host) (Access.answerAll site accesses (site.objects m)) := by
  induction accesses generalizing host m with
  | nil => exact h.acts_same []
  | cons a rest ih =>
      obtain ⟨hReply, between, hBetween, hObjects, hSpares⟩ : site.Acts m _ _ := h.acts_access a
      obtain ⟨hReplies, after, hAfter, hLeft, hSpared⟩ := ih hBetween
      rw [hObjects] at hReplies hLeft
      exact ⟨congrArg₂ List.cons hReply hReplies, after, hAfter, hLeft, hSpares.trans hSpared⟩

/-- A call about keys of a lakehouse alone. -/
def Request.Below (site : Site) : Request → Prop
  | .call c => Text.startsWith c.key site.keyStart = true
  | _ => False

theorem Site.asks_deleteKeys {kind : Request → Prop} {keys : List String}
    (h : ∀ key ∈ keys, kind (.call (.delete key))) : (Site.deleteKeys keys).Asks kind := by
  induction keys with
  | nil => exact Program.asks_done ()
  | cons key rest ih =>
      have hCall := (Program.asks_call _).mpr (h key List.mem_cons_self)
      exact hCall.bind fun _ => ih fun other hOther => h other (List.mem_cons_of_mem key hOther)

namespace Access

variable {site : Site}

theorem asks_ask (a : Access) : (a.ask site).Asks (Request.Below site) := by
  have hCall {c : Storage.Call} {path : String} (hKey : c.key = site.resolve path) :
      (Program.call c).Asks (Request.Below site) := by
    rw [Program.asks_call, Request.Below, hKey]
    exact site.startsWith_resolve path
  cases a with
  | create path blob => exact (hCall rfl).bind fun _ => Program.asks_done _
  | overwrite path blob =>
      refine (hCall rfl).bind fun outcome => ?_
      cases outcome with
      | written => exact Program.asks_done _
      | alreadyExists => exact Program.asks_fail _
  | read path => exact (hCall rfl).bind fun _ => Program.asks_done _
  | head path => exact (hCall rfl).bind fun _ => Program.asks_done _
  | contains path => exact (hCall rfl).bind fun _ => Program.asks_done _
  | delete paths =>
      have hDelete : (Site.deleteKeys (paths.map site.resolve)).Asks (Request.Below site) := by
        apply Site.asks_deleteKeys
        intro key hKey
        obtain ⟨path, -, rfl⟩ := List.mem_map.mp hKey
        exact site.startsWith_resolve path
      exact hDelete.bind fun _ => Program.asks_done _
  | list start => exact (hCall rfl).bind fun _ => Program.asks_done _

theorem asks_program (a : Access) : (a.program site).Asks (Request.Below site) := by
  rw [a.program_eq]
  exact (Program.asks_ofExcept _).bind fun _ => a.asks_ask

theorem program_of_mem {a : Access} {path : String} (hPath : path ∈ a.paths)
    (hCheck : Path.check path ≠ .ok ()) :
    ∃ fault, a.program site = .fail (.invalidArgument (.path fault)) := by
  rw [a.program_eq, site.mapM_key]
  cases hFind : a.paths.findSome? Path.fault? with
  | some fault => exact ⟨fault, rfl⟩
  | none =>
      have hNone := List.findSome?_eq_none_iff.mp hFind path hPath
      exact absurd (Path.check_eq_ok_iff.mpr hNone) hCheck

theorem answer_list {start : String} (hStart : start = "" ∨ Path.check start = .ok ())
    (objects : TextMap Blob) :
    (Access.list start).answer site objects =
      (.ok (.paths (objects.keys.filter fun path => Text.startsWith path start)), objects) := by
  have hFind : (Access.list start).paths.findSome? Path.fault? = none := by
    rw [paths]
    split
    · rfl
    · next hNonempty =>
        rw [List.findSome?_singleton]
        exact Path.check_eq_ok_iff.mp (hStart.resolve_left hNonempty)
  rw [answer, hFind]
  rfl

end Access

/-- Wherever a lakehouse lies in a store that keeps keys as they are, any accesses to it act as on a finite
map from paths to objects, which is what the store holds under the keys that begin as those of the lakehouse
do. No access asks about other keys. With a path that is not accepted among those that it names, an access
fails before it asks for anything. A listing finds the stored paths that begin as asked, in byte order. -/
theorem Site.acts_as_finite_map (site : Site) {host : Host} {m : Memory} (hHolds : host.Holds m)
    (accesses : List Access) :
    site.Acts m (Access.runAll site accesses host) (Access.answerAll site accesses (site.objects m)) ∧
      (∀ path, (site.objects m).get? path = m.get? (site.keyStart ++ path)) ∧
      (∀ a : Access, (a.program site).Asks (Request.Below site)) ∧
      (∀ (a : Access) (path : String), path ∈ a.paths → Path.check path ≠ .ok () →
        ∃ fault, a.program site = .fail (.invalidArgument (.path fault))) ∧
      ∀ (objects : TextMap Blob) (start : String), start = "" ∨ Path.check start = .ok () →
        ∃ paths, (Access.list start).answer site objects = (.ok (.paths paths), objects) ∧
          paths.Pairwise Text.Before ∧
          ∀ path, path ∈ paths ↔ objects.contains path = true ∧ ∃ rest, path = start ++ rest := by
  refine ⟨hHolds.acts_runAll accesses, ?_, Access.asks_program, ?_, ?_⟩
  · intro path
    rw [site.get?_objects, site.resolve_eq]
  · intro a path hPath hCheck
    exact Access.program_of_mem hPath hCheck
  · intro objects start hStart
    refine ⟨_, Access.answer_list hStart objects, objects.sorted_keys.filter _, ?_⟩
    intro path
    rw [List.mem_filter, objects.mem_keys_iff_contains, Text.startsWith_iff_exists]

/-- An object of a lakehouse below `a`, and two that lie beside it. -/
def neighbouringObjects : Memory :=
  .ofList [("a/x", .bytes [1, 2]), ("ab", .bytes [3]), ("b/x", .bytes [4])]

/-- A store with neighbouring objects that logs its calls. -/
def neighbouringHost : Host := .start (.tracing { Storage.Tracing.empty with objects := neighbouringObjects }) 0

/-- An object is not created again, a batch with one bad path deletes nothing, and a good batch deletes
what it names whatever the order. -/
theorem Site.acts_as_finite_map_amongNeighbours :
    Site.below "/a/" = .ok ⟨some "a"⟩ ∧ neighbouringHost.Holds neighbouringObjects ∧
      (Access.runAll ⟨some "a"⟩
        [.create "x" (.bytes []), .create "xy/z" (.bytes [5]), .list "x", .delete ["x", "../b/x"],
          .head "x", .delete ["xy/z", "x", "xy/z"], .contains "x", .read "x"]
        neighbouringHost).1.map (·.mapError Error.message) =
      [.ok (.outcome .alreadyExists), .ok (.outcome .written), .ok (.paths ["x", "xy/z"]),
        .error "invalid argument: path traversal not allowed: ../b/x", .ok (.found (some ⟨"a/x", 2⟩)),
        .ok .done, .ok (.truth false), .error "not found: object a/x does not exist"] := by
  have hHolds : neighbouringHost.Holds neighbouringObjects := .tracing _ rfl rfl rfl
  refine ⟨rfl, hHolds, ?_⟩
  rw [(Site.acts_as_finite_map ⟨some "a"⟩ hHolds _).1.1]
  decide +kernel

end SnapshotCatalog
