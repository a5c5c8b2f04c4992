import SnapshotCatalog.Proofs.Calls
import SnapshotCatalog.Proofs.Requests
import SnapshotCatalog.Proofs.Schedules
import SnapshotCatalog.Proofs.Snapshots
/-!
Creation times follow the chain. A root is stamped before it is created, and clients may stamp in one
order and create in another; but a commit that publishes a version began at the version before it, so
it read that version before it looked at the clock. As long as the clock never goes backwards, times
do not decrease from version to version, and the search for a time finds where they pass it.
-/
namespace SnapshotCatalog

open Storage (Memory)
open Program

/-! ### What is stamped was told by the clock -/

/-- Whether an answer fits the times that the clock told. -/
def Request.Told (told : Millis → Prop) : (r : Request) → r.Answer → Prop
  | .clock, time => told time
  | _, _ => True

/-- Whether the node that a request creates, if it creates one, is stamped with a time that the clock
told. -/
def Request.Stamped (told : Millis → Prop) : Request → Prop
  | .call (.put _ (.node file) .createNew) => ∃ r time, file = Node.encode r time ∧ told time
  | _ => True

/-- The terms on which nodes are stamped. -/
def stamping (told : Millis → Prop) : Terms := ⟨Request.Told told, Request.Stamped told, fun _ => True⟩

variable {told : Millis → Prop} {site : Site}

theorem covers_stamped (site : Site) (told : Millis → Prop) (op : Operation Transaction) :
    Covers site (Request.Stamped told) op where
  chain := ⟨⟨fun _ => trivial, fun _ => trivial⟩, fun _ => trivial⟩
  readHint := trivial
  writeHint blob := by cases blob <;> trivial
  uuid := trivial
  transactionId := trivial
  clock := trivial
  lakehouse _ _ := trivial
  limits _ _ := trivial
  rows _ _ _ _ := trivial
  definition _ _ _ _ _ _ _ _ _ _ := trivial

namespace Lakehouse

theorem keeps_stamping_publish (version : Version) (d : LakehouseDef) (r : Root) :
    (publish site version d r).Keeps (stamping told) fun _ => True := by
  have hClock : clock.Keeps (stamping told) told :=
    Keeps.request trivial fun _ hTold => Keeps.done hTold
  refine (keeps_bind _ _ _).mpr (hClock.weaken fun time hTold => ?_)
  refine (keeps_bind _ _ _).mpr ((keeps_ofExcept _).mpr ⟨fun _ _ => ?_, fun _ _ => trivial⟩)
  have hCreate : (site.create (RootPath.ofVersion version) (.node (Node.encode r time))).Asks
      (Request.Stamped told) := site.asks_create ⟨r, time, rfl, hTold⟩
  refine (keeps_bind _ _ _).mpr ((Asks.keeps hCreate fun _ => trivial).weaken fun outcome _ => ?_)
  cases outcome with
  | alreadyExists => exact Keeps.done trivial
  | written =>
      have hWrite : (Hint.write site version).Asks (Request.Stamped told) :=
        Hint.asks_write (fun _ => trivial) fun blob => by cases blob <;> trivial
      exact (Asks.bind hWrite fun _ => asks_done _).keeps fun _ => trivial

end Lakehouse

/-- Every operation stamps the roots that it creates with times that it was told. -/
theorem Operation.keeps_stamping (op : Operation Transaction) :
    (op.program site).Keeps (stamping told) fun _ => True :=
  (covers_stamped site told op).toCoversUnpublished.keeps_program (fun _ => trivial)
    fun _ => Lakehouse.keeps_stamping_publish

/-- What remains of a program has been told what was exchanged. -/
theorem Program.LeadsTo.reaches {α : Type} {p rest : Program α} {trace : List Exchange}
    (h : p.LeadsTo trace rest) : Reaches (fun r a => ⟨r, a⟩ ∈ trace) p rest := by
  induction h with
  | start => exact .start
  | answer h ih =>
      exact .answer (ih.mono fun _ _ hMem => List.mem_append_left _ hMem)
        (List.mem_append_right _ (List.mem_singleton_self _))

/-- The time with which a node is stamped can be read off it. -/
theorem Node.time_unique {r other : Root} {time otherTime : Millis} (hMarked : r.Marked)
    (h : encode other otherTime = encode r time) : otherTime = time := by
  have hRows : rowsOf other otherTime = rowsOf r time := by
    have hTexts := congrArg (fun file => file.batches.map batchTexts) h
    simpa only [encode, File.ofRows, List.map_cons, List.map_nil, batchTexts_ofRows,
      List.cons.injEq, Except.ok.injEq, and_true] using hTexts
  have hMem : (Key.createdAtMillis, Numeral.ofInt otherTime.toInt) ∈ rowsOf r time := by
    rw [← hRows]
    simp [rowsOf]
  have hNoObject (text : String) : (Key.createdAtMillis, text) ∉ r.rows.entries := fun hEntry =>
    absurd (hMarked _ hEntry) (by decide : ¬ Key.hasMark Key.createdAtMillis = true)
  have hText : Numeral.ofInt otherTime.toInt = Numeral.ofInt time.toInt := by
    simp only [Key.createdAtMillis] at hNoObject
    simpa [rowsOf, Key.lakehouseDef, Key.previousRoot, Key.rollbackFromRoot, Key.createdAtMillis,
      Key.rowCount, hNoObject] using hMem
  have hRead := Numeral.readSigned_ofInt otherTime
  rw [hText, Numeral.readSigned_ofInt] at hRead
  exact (Except.ok.inj hRead).symm

/-! ### The times that the clock told -/

/-- The time that was told in an event, if the clock was asked. -/
def Event.time? : Event → Option Millis
  | .answered _ _ .clock time => some time
  | _ => none

/-- The times that the clock told all clients, in their order. -/
def timesIn (log : List Event) : List Millis := log.filterMap Event.time?

/-- The clock never went backwards. -/
def ClockAscends (log : List Event) : Prop := (timesIn log).Pairwise (· ≤ ·)

theorem timesIn_append (log : List Event) (event : Event) :
    timesIn (log ++ [event]) = timesIn log ++ event.time?.toList := by
  rw [timesIn, List.filterMap_append]
  cases h : event.time? with
  | none => simp [timesIn, h]
  | some time => simp [timesIn, h]

theorem timesIn_subset (log : List Event) (event : Event) :
    timesIn log ⊆ timesIn (log ++ [event]) := by
  rw [timesIn_append]
  exact List.subset_append_left _ _

theorem mem_timesIn {log : List Event} {client : Nat} {op : Operation Handle} {time : Millis}
    (h : .answered client op .clock time ∈ log) : time ∈ timesIn log :=
  List.mem_filterMap.mpr ⟨_, h, rfl⟩

theorem ClockAscends.of_append {log : List Event} {event : Event}
    (h : ClockAscends (log ++ [event])) : ClockAscends log := by
  rw [ClockAscends, timesIn_append] at h
  exact (List.pairwise_append.mp h).1

/-- The clock tells no time before one that it told. -/
theorem ClockAscends.le_last {log : List Event} {client : Nat} {op : Operation Handle}
    {time : Millis} (h : ClockAscends (log ++ [.answered client op .clock time])) {earlier : Millis}
    (hMem : earlier ∈ timesIn log) : earlier ≤ time := by
  rw [ClockAscends, timesIn_append] at h
  exact (List.pairwise_append.mp h).2.2 earlier hMem time (List.mem_singleton_self time)

/-- A version's key is that of its root path. -/
theorem Site.eq_resolve_of_versionAt? {site : Site} {key : String} {v : Version}
    (h : site.versionAt? key = some v) : key = site.resolve (RootPath.ofVersion v) := by
  obtain ⟨path, hAfter, hVersion⟩ := Option.bind_eq_some_iff.mp h
  obtain ⟨rest, hPrefix, rfl⟩ := Option.map_eq_some_iff.mp hAfter
  have hKey : key = site.keyStart ++ String.ofList rest := by
    rw [← String.toList_inj, String.toList_append, String.toList_ofList]
    exact (List.isPrefixOf?_eq_some_iff_append_eq.mp hPrefix).symm
  rw [← RootPath.eq_ofVersion_of_version? hVersion, hKey]
  unfold Site.keyStart Site.resolve
  split
  · rw [String.append_empty]
  · rw [String.empty_append]

namespace System

variable {s s' : System} {published : List Publication}

/-- A client that is about to create a root has been told the time with which it is stamped. -/
theorem Followed.stamped (h : s.Followed site) {client : Nat} {op : Operation Handle}
    {drawn : Option Uuid} {key : String} {file : Node.File}
    {next : Except Error Storage.WriteOutcome → Program Reply}
    (hRun : s.runs client =
      some ⟨op, drawn, .request (.call (.put key (.node file) .createNew)) next⟩) :
    ∃ r time, file = Node.encode r time ∧ ⟨.clock, time⟩ ∈ exchanged client s.log := by
  have hUnderway := h.clients client
  rw [hRun] at hUnderway
  have hReaches : Reaches (Request.Told fun time => ⟨.clock, time⟩ ∈ exchanged client s.log)
      ((op.map Handle.transaction).program site)
      (.request (.call (.put key (.node file) .createNew)) next) := by
    refine hUnderway.1.reaches.mono fun r a hMem => ?_
    cases r with
    | clock => exact hMem
    | _ => trivial
  exact ((keeps_request _ _).mp (hReaches.keeps (Operation.keeps_stamping _))).1

theorem Followed.mem_timesIn (h : s.Followed site) {client : Nat} {time : Millis}
    (hMem : ⟨.clock, time⟩ ∈ exchanged client s.log) : time ∈ timesIn s.log := by
  have hUnderway := h.clients client
  cases hRun : s.runs client with
  | none =>
      rw [hRun] at hUnderway
      rw [show exchanged client s.log = [] from hUnderway] at hMem
      cases hMem
  | some run =>
      rw [hRun] at hUnderway
      exact SnapshotCatalog.mem_timesIn (hUnderway.2 _ hMem)

/-- What is known of creation times, as long as the clock never went backwards: a root was stamped
with a time that was told, and both that time and every time that a client was told since it began
are no earlier than the creation of the root at which its transaction began. -/
structure Timed (s : System) : Prop where
  stamps : ∀ client op key file,
    .answered client op (.call (.put key (.node file) .createNew)) (.ok .written) ∈ s.log →
      ∃ r time, file = Node.encode r time ∧ time ∈ timesIn s.log ∧
        ∀ h began, op.about? = some h → h.transaction.beginning.createdAt = some began →
          began ≤ time
  running : ∀ client run h began time, s.runs client = some run → run.operation.about? = some h →
    h.transaction.beginning.createdAt = some began → ⟨.clock, time⟩ ∈ exchanged client s.log →
      began ≤ time

/-- The creation of a published root is in the log. -/
theorem Sound.exists_creation (hSound : s.Sound site published) (hReach : Reachable site s) {i : Nat}
    {p : Publication} (hp : published[i]? = some p) : ∃ client,
      .answered client p.author (.call (.put (site.resolve (RootPath.ofVersion (UInt64.ofNat i)))
        p.root.blob .createNew)) (.ok .written) ∈ s.log := by
  have hLength := (List.getElem?_eq_some_iff.mp hp).1
  have hPlace : (UInt64.ofNat i).toNat = i :=
    UInt64.toNat_ofNat_of_lt' (Nat.lt_of_lt_of_le hLength hSound.records.countable)
  have hNumbered : (UInt64.ofNat i, p.author) ∈ s.published site := by
    rw [hSound.log]
    exact List.mem_of_getElem? ((getElem?_numbered published i).trans (by rw [hp, Option.map_some]))
  obtain ⟨event, hEvent, hPublished⟩ := List.mem_filterMap.mp hNumbered
  unfold Event.published? at hPublished
  split at hPublished
  · next client op key blob =>
    obtain ⟨v, hVersion, hSame⟩ := Option.map_eq_some_iff.mp hPublished
    cases hSame
    cases Site.eq_resolve_of_versionAt? hVersion
    -- What was created there is still there, and it is the object of the published root.
    have hGet := hReach.kept client _ _ blob
      (site.resolve_ne_hint (RootPath.ofVersion_ne_hint _)) hEvent
    rw [hSound.records.stored, hPlace, hp, Option.map_some, Option.some_inj] at hGet
    exact ⟨client, hGet ▸ hEvent⟩
  · cases hPublished

/-- A published root was stamped with a time that was told, which is no earlier than the creation of
the root at which its author began. -/
theorem Timed.of_published (h : s.Timed) (hReach : Reachable site s)
    (hSound : s.Sound site published) {p : Publication} (hp : p ∈ published) :
    ∃ time ∈ timesIn s.log, p.root.createdAt = some time ∧ ∀ handle began,
      p.author.about? = some handle → handle.transaction.beginning.createdAt = some began →
        began ≤ time := by
  obtain ⟨i, hi⟩ := List.getElem?_of_mem hp
  obtain ⟨first, hFirst⟩ := Records.exists_first hp
  have hVersion := hSound.records.isVersion hFirst hi
  obtain ⟨stamp, hStamp⟩ := hVersion.stamped
  obtain ⟨client, hEvent⟩ := hSound.exists_creation hReach hi
  obtain ⟨r, time, hFile, hTime, hBegan⟩ := h.stamps client _ _ _ hEvent
  have hSame : time = stamp := by
    rw [hStamp] at hFile
    exact Node.time_unique hVersion.marked hFile.symm
  subst hSame
  exact ⟨time, hTime, hStamp, hBegan⟩

/-- The root at which a known transaction began was stamped with a time that was told. -/
theorem Timed.mem_of_known (h : s.Timed) (hReach : Reachable site s)
    (hSound : s.Sound site published) {handle : Handle} (hKnown : handle.Known site s.store published)
    {began : Millis} (hBegan : handle.transaction.beginning.createdAt = some began) :
    began ∈ timesIn s.log := by
  obtain ⟨⟨p, hp, hRoot⟩, -⟩ := hKnown
  obtain ⟨time, hTime, hStamp, -⟩ := h.of_published hReach hSound hp
  rw [hRoot, hBegan] at hStamp
  cases hStamp
  exact hTime

section Step

variable {client : Nat} {op : Operation Handle}

/-- An idle client has been told nothing yet when it starts an operation. -/
theorem Timed.start (h : s.Timed) (hFollowed : s.Followed site) (hIdle : s.runs client = none) :
    (s.withRun client (some (.start site op))).Timed := by
  refine ⟨h.stamps, fun other run handle began time hRun hAbout hBegan hTold => ?_⟩
  rcases runs_withRun hRun with ⟨rfl, hSame⟩ | hOld
  · have hNone := hFollowed.clients other
    rw [hIdle] at hNone
    have hTold : ⟨.clock, time⟩ ∈ exchanged other s.log := hTold
    rw [show exchanged other s.log = [] from hNone] at hTold
    cases hTold
  · exact h.running other run handle began time hOld hAbout hBegan hTold

/-- A root that is created was stamped with a time that its client was told; and the clock tells no
time before the creation of a root at which a transaction has begun already. -/
theorem Timed.answer (h : s.Timed) (hReach : Reachable site s) (hSound : s.Sound site published)
    {drawn : Option Uuid} {r : Request} {next : r.Answer → Program Reply} {a : r.Answer}
    {store : Memory} (hRun : s.runs client = some ⟨op, drawn, .request r next⟩)
    (hClock : ClockAscends (s.log ++ [.answered client op r a])) :
    Timed { s.withRun client (some ⟨op, Run.drawnAfter drawn r a, next a⟩) with
      store, log := s.log ++ [.answered client op r a] } := by
  refine ⟨fun other author key file hMem => ?_,
    fun other run handle began time hOther hAbout hBegan hTold => ?_⟩
  · rcases List.mem_append.mp hMem with hOld | hNew
    · obtain ⟨root, time, hFile, hTime, hBegan⟩ := h.stamps other author key file hOld
      exact ⟨root, time, hFile, timesIn_subset _ _ hTime, hBegan⟩
    · cases List.mem_singleton.mp hNew
      obtain ⟨root, time, hFile, hTold⟩ := hReach.followed.stamped hRun
      exact ⟨root, time, hFile, timesIn_subset _ _ (hReach.followed.mem_timesIn hTold),
        fun handle began hAbout hBegan => h.running client _ handle began time hRun hAbout hBegan hTold⟩
  · have hTold : ⟨.clock, time⟩ ∈ exchanged other (s.log ++ [.answered client op r a]) := hTold
    rw [exchanged_answered] at hTold
    by_cases hSame : other = client
    · subst hSame
      have hUpdate : Function.update s.runs other (some ⟨op, Run.drawnAfter drawn r a, next a⟩) other =
        some run := hOther
      rw [Function.update_self] at hUpdate
      cases hUpdate
      rw [if_pos rfl] at hTold
      rcases List.mem_append.mp hTold with hEarlier | hNow
      · exact h.running other _ handle began time hRun hAbout hBegan hEarlier
      · cases List.mem_singleton.mp hNow
        have hKnown := (hSound.runs other _ hRun).known handle hAbout
        exact hClock.le_last (h.mem_of_known hReach hSound hKnown hBegan)
    · have hUpdate : Function.update s.runs client (some ⟨op, Run.drawnAfter drawn r a, next a⟩) other =
        some run := hOther
      rw [Function.update_of_ne hSame] at hUpdate
      rw [if_neg hSame] at hTold
      exact h.running other run handle began time hUpdate hAbout hBegan hTold

/-- A client whose operation is over has been told nothing for another one. -/
theorem Timed.finish (h : s.Timed) {run : Run} {outcome : Except Error Reply} :
    Timed { s.withRun client none with
      handles := s.handles ++ run.handout outcome,
      log := s.log ++ [.ended client run.operation outcome] } := by
  refine ⟨fun other author key file hMem => ?_,
    fun other found handle began time hOther hAbout hBegan hTold => ?_⟩
  · rcases List.mem_append.mp hMem with hOld | hNew
    · obtain ⟨root, time, hFile, hTime, hBegan⟩ := h.stamps other author key file hOld
      exact ⟨root, time, hFile, timesIn_subset _ _ hTime, hBegan⟩
    · cases List.mem_singleton.mp hNew
  · have hTold : ⟨.clock, time⟩ ∈
      exchanged other (s.log ++ [.ended client run.operation outcome]) := hTold
    rw [exchanged_ended] at hTold
    split at hTold
    · cases hTold
    · rcases runs_withRun hOther with ⟨_, hSame⟩ | hOld
      · cases hSame
      · exact h.running other found handle began time hOld hAbout hBegan hTold

end Step

theorem Reachable.timed (hReach : Reachable site s) (hClock : ClockAscends s.log) : s.Timed := by
  induction hReach with
  | refl => exact ⟨fun _ _ _ _ hMem => (nomatch hMem), fun _ _ _ _ _ hRun => (nomatch hRun)⟩
  | tail hBefore hStep ih =>
      obtain ⟨published, hSound⟩ := Reachable.sound hBefore
      cases hStep with
      | start hIdle hKnown hFits => exact (ih hClock).start (Reachable.followed hBefore) hIdle
      | answer hRun hServes => exact (ih hClock.of_append).answer hBefore hSound hRun hClock
      | finish hRun hOutcome => exact (ih hClock.of_append).finish

/-! ### Times along the chain -/

variable {published : List Publication}

/-- A published version was stamped no earlier than the version before it. -/
theorem Timed.next (h : s.Timed) (hReach : Reachable site s) (hSound : s.Sound site published)
    {i : Nat} {p q : Publication} (hp : published[i]? = some p) (hq : published[i + 1]? = some q) :
    ∃ before after, p.root.createdAt = some before ∧ q.root.createdAt = some after ∧
      before ≤ after := by
  obtain ⟨before, -, hBefore, -⟩ := h.of_published hReach hSound (List.mem_of_getElem? hp)
  obtain ⟨after, -, hAfter, hBegan⟩ := h.of_published hReach hSound (List.mem_of_getElem? hq)
  obtain ⟨version, handle, -, -, -, hAuthor, hBeginning, -⟩ := hSound.records.next i p q hp hq
  exact ⟨before, after, hBefore, hAfter,
    hBegan handle before (by rw [hAuthor]; rfl) (hBeginning ▸ hBefore)⟩

/-- Along the published versions times do not decrease. -/
theorem Timed.ascends (h : s.Timed) (hReach : Reachable site s) (hSound : s.Sound site published)
    {i j : Nat} (hLe : i ≤ j) {p q : Publication} (hp : published[i]? = some p)
    (hq : published[j]? = some q) :
    ∃ before after, p.root.createdAt = some before ∧ q.root.createdAt = some after ∧
      before ≤ after := by
  induction hLe generalizing q with
  | refl =>
      cases hp.symm.trans hq
      obtain ⟨time, -, hStamp, -⟩ := h.of_published hReach hSound (List.mem_of_getElem? hp)
      exact ⟨time, time, hStamp, hStamp, Int64.le_refl time⟩
  | @step j hLe ih =>
      have hLength := (List.getElem?_eq_some_iff.mp hq).1
      have hMiddle : published[j]? = some published[j] := List.getElem?_eq_getElem (by omega)
      obtain ⟨before, middle, hBefore, hStamp, hFirst⟩ := ih hMiddle
      obtain ⟨middle', after, hStamp', hAfter, hSecond⟩ := h.next hReach hSound hMiddle hq
      cases hStamp.symm.trans hStamp'
      exact ⟨before, after, hBefore, hAfter, Int64.le_trans hFirst hSecond⟩

end System

/-! ### Looking for a time -/

/-- A root was stamped at a time or before it. -/
def Root.StampedBy (time : Millis) (r : Root) : Prop := ∃ stamp, r.createdAt = some stamp ∧ stamp ≤ time

/-- How a search for a time ends that goes down from a version: with the newest root that is no
younger, or with none. -/
inductive LastBy (published : List Publication) (time : Millis) (top : Nat) :
    Except Error Root → Prop
  | found {j : Nat} {q : Publication} (hq : published[j]? = some q) (hBelow : j ≤ top)
      (hBy : q.root.StampedBy time) (hAfter : ∀ k p, j < k → k ≤ top → published[k]? = some p →
        ¬ p.root.StampedBy time) : LastBy published time top (.ok q.root)
  | none (hAfter : ∀ k p, k ≤ top → published[k]? = some p → ¬ p.root.StampedBy time) :
      LastBy published time top (.error (.objectNotFound (.beforeFirst time)))

theorem Root.any_le_iff (time : Millis) (r : Root) :
    r.createdAt.any (· ≤ time) = true ↔ r.StampedBy time := by
  cases hStamp : r.createdAt with
  | none => simp [StampedBy, hStamp]
  | some stamp => simp [StampedBy, hStamp]

/-- A search for a time ends at a root that was stamped by then. -/
theorem Root.StampedBy.judge {time : Millis} {r : Root} (h : r.StampedBy time)
    (location : Location) : (Chain.Search.forTime time).judge location r = some (.ok r) :=
  if_pos ((Root.any_le_iff time r).mpr h)

/-- It goes on below one that was not. -/
theorem Root.judge_late {time : Millis} {r : Root} (h : ¬ r.StampedBy time) (location : Location) :
    (Chain.Search.forTime time).judge location r = none :=
  if_neg fun hAny => h ((Root.any_le_iff time r).mp hAny)

/-- One version further down a search for a time still ends in the same way, if the versions above are
too young. -/
theorem LastBy.step {published : List Publication} {time : Millis} {top : Nat} {p : Publication}
    {outcome : Except Error Root} (hp : published[top + 1]? = some p)
    (hLate : ¬ p.root.StampedBy time) (h : LastBy published time top outcome) :
    LastBy published time (top + 1) outcome := by
  have hTop (k : Nat) (q : Publication) (hk : k ≤ top + 1) (hq : published[k]? = some q)
      (hOther : k ≤ top → ¬ q.root.StampedBy time) : ¬ q.root.StampedBy time := by
    rcases Nat.le_or_eq_of_le_succ hk with hBelow | rfl
    · exact hOther hBelow
    · cases hp.symm.trans hq
      exact hLate
  cases h with
  | found hq hBelow hBy hAfter =>
      exact .found hq (Nat.le_succ_of_le hBelow) hBy fun k q hAbove hk hOther =>
        hTop k q hk hOther fun hBelow => hAfter k q hAbove hBelow hOther
  | none hAfter =>
      exact .none fun k q hk hOther => hTop k q hk hOther fun hBelow => hAfter k q hBelow hOther

namespace Records

open Chain

variable {m : Memory} {published : List Publication} (h : Records site m published)

include h

/-- A version that was stamped by then ends the search for a time. -/
theorem finds_down_here {time : Millis} {i : Nat} {p : Publication} (hp : published[i]? = some p)
    (hBy : p.root.StampedBy time) (below : Nat) :
    Finds site m ((Search.forTime time).down site below p.root) (.ok p.root) := by
  obtain ⟨location, hLocation, -⟩ := h.judge_forVersion (v := 0) hp
  rw [Search.down.eq_def]
  dsimp only
  rw [hLocation]
  apply (finds_ofExcept _).bind
  rw [hBy.judge]
  exact .done _

/-- The search for a time goes down to the newest version that was stamped by then. -/
theorem finds_down_forTime (time : Millis) {below i : Nat} {p : Publication}
    (hp : published[i]? = some p) (hBelow : i ≤ below) :
    ∃ outcome, Finds site m ((Search.forTime time).down site below p.root) outcome ∧
      LastBy published time i outcome := by
  induction i generalizing below p with
  | zero =>
      by_cases hBy : p.root.StampedBy time
      · exact ⟨.ok p.root, h.finds_down_here hp hBy below,
          .found hp (Nat.le_refl 0) hBy fun k _ hAbove hk => by omega⟩
      obtain ⟨location, hLocation, -⟩ := h.judge_forVersion (v := 0) hp
      refine ⟨.error (.objectNotFound (.beforeFirst time)), ?_, .none fun k q hk hq => ?_⟩
      · rw [Search.down.eq_def]
        dsimp only
        rw [hLocation]
        apply (finds_ofExcept _).bind
        rw [Root.judge_late hBy]
        exact (h.finds_readPrevious_first hp).bind (.fail _)
      · obtain rfl := Nat.le_zero.mp hk
        cases hp.symm.trans hq
        exact hBy
  | succ i ih =>
      by_cases hBy : p.root.StampedBy time
      · exact ⟨.ok p.root, h.finds_down_here hp hBy below,
          .found hp (Nat.le_refl _) hBy fun k _ hAbove hk => by omega⟩
      obtain ⟨location, hLocation, -⟩ := h.judge_forVersion (v := 0) hp
      obtain ⟨below, rfl⟩ := Nat.exists_eq_succ_of_ne_zero (Nat.ne_of_gt (Nat.zero_lt_of_lt hBelow))
      have hLength := (List.getElem?_eq_some_iff.mp hp).1
      have hBefore : published[i]? = some published[i] := List.getElem?_eq_getElem (by omega)
      obtain ⟨outcome, hFinds, hLast⟩ := ih hBefore (Nat.le_of_succ_le_succ hBelow)
      refine ⟨outcome, ?_, hLast.step hp hBy⟩
      rw [Search.down, hLocation]
      apply (finds_ofExcept _).bind
      rw [Root.judge_late hBy]
      exact (h.finds_readPrevious hBefore hp).bind hFinds

/-- The search for a time that starts at a version goes down from it. -/
theorem finds_runFrom_forTime (time : Millis) {top : Version} (hTop : top.toNat < published.length) :
    ∃ outcome, Finds site m ((Search.forTime time).runFrom site top) outcome ∧
      LastBy published time top.toNat outcome := by
  have hHead : published[top.toNat]? = some published[top.toNat] := List.getElem?_eq_getElem hTop
  obtain ⟨location, hLocation, hPlace, -⟩ := h.judge_forVersion (v := 0) hHead
  obtain ⟨outcome, hFinds, hLast⟩ := h.finds_down_forTime time hHead (Nat.le_of_eq hPlace.symm)
  refine ⟨outcome, (h.finds_readRoot hHead).bind ?_, hLast⟩
  rw [hLocation]
  exact (finds_ofExcept _).bind hFinds

end Records

/-- Where nothing else happens, the search for a time ends with the newest version that was stamped
by then, or says that all are younger. -/
theorem Shows.yields_rootBefore {σ : Type} {answer : (r : Request) → σ → r.Answer × σ}
    {still : σ → Prop} {m : Memory} {published : List Publication}
    (h : Shows answer still site m) (hRecords : Records site m published) (hSome : published ≠ [])
    (time : Millis) :
    ∃ outcome, Yields answer still (Chain.rootBefore site time) outcome ∧
      LastBy published time (published.length - 1) outcome := by
  have hLength := List.length_pos_iff.mpr hSome
  have hCount := hRecords.countable
  have hTop : (UInt64.ofNat (published.length - 1)).toNat = published.length - 1 :=
    UInt64.toNat_ofNat_of_lt' (by omega)
  have hHead : (UInt64.ofNat (published.length - 1)).toNat < published.length := by omega
  obtain ⟨outcome, hFinds, hLast⟩ := hRecords.finds_runFrom_forTime time hHead
  rw [hTop] at hLast
  refine ⟨outcome, ?_, hLast⟩
  rw [Chain.rootBefore, Chain.Search.run_eq]
  exact (h.yields_latestVersion hRecords (by omega)).bind (h.yields_of_finds hFinds)

/-! ### What is found for a time -/

/-- A version is the last that was stamped at a time or before it. -/
structure Site.LastUntil (site : Site) (m : Memory) (time : Millis) (v : Version) : Prop where
  upTo : ∀ w ≤ v, ∃ r stamp, site.rootAt? m w = some r ∧ r.createdAt = some stamp ∧ stamp ≤ time
  after : ∀ w r, v < w → site.rootAt? m w = some r →
    ∃ stamp, r.createdAt = some stamp ∧ time < stamp

namespace System

variable {s : System} {published : List Publication} {time : Millis} {outcome : Except Error Root}

/-- The newest version that was stamped by then is the last one: those before it are no younger. -/
theorem Timed.lastUntil (h : s.Timed) (hReach : Reachable site s) (hSound : s.Sound site published)
    {v : Version} {p : Publication} (hp : published[v.toNat]? = some p)
    (hBy : p.root.StampedBy time) (hAfter : ∀ k q, v.toNat < k → k ≤ published.length - 1 →
      published[k]? = some q → ¬ q.root.StampedBy time) :
    site.LastUntil s.store time v where
  upTo w hw := by
    have hLe : w.toNat ≤ v.toNat := UInt64.le_iff_toNat_le.mp hw
    have hLength := (List.getElem?_eq_some_iff.mp hp).1
    have hq : published[w.toNat]? = some published[w.toNat] := List.getElem?_eq_getElem (by omega)
    obtain ⟨before, after, hBefore, hLater, hOrder⟩ := h.ascends hReach hSound hLe hq hp
    obtain ⟨stamp, hStamp, hTime⟩ := hBy
    cases hLater.symm.trans hStamp
    refine ⟨_, before, ?_, hBefore, Int64.le_trans hOrder hTime⟩
    rw [hSound.records.rootAt?_eq, hq, Option.map_some]
  after w r hw hRoot := by
    rw [hSound.records.rootAt?_eq] at hRoot
    obtain ⟨q, hq, rfl⟩ := Option.map_eq_some_iff.mp hRoot
    have hLength := (List.getElem?_eq_some_iff.mp hq).1
    obtain ⟨stamp, -, hStamp, -⟩ := h.of_published hReach hSound (List.mem_of_getElem? hq)
    have hLate := hAfter w.toNat q (UInt64.lt_iff_toNat_lt.mp hw) (by omega) hq
    exact ⟨stamp, hStamp, Int64.not_le.mp fun hTime => hLate ⟨stamp, hStamp, hTime⟩⟩

/-- What a search for a time that goes down from the newest version finds, it finds because of when
version 0 was stamped. -/
theorem Timed.decides (h : s.Timed) (hReach : Reachable site s) (hSound : s.Sound site published)
    {p : Publication} (hp : published[0]? = some p) {stamp : Millis}
    (hStamp : p.root.createdAt = some stamp) (hLast : LastBy published time (published.length - 1) outcome) :
    (stamp ≤ time → ∃ v r, outcome = .ok r ∧ site.rootAt? s.store v = some r ∧
        site.LastUntil s.store time v) ∧
      (time < stamp ↔ ∃ absence, outcome = .error (.objectNotFound absence)) ∧
      ∀ e, outcome = .error e → e = .objectNotFound (.beforeFirst time) := by
  cases hLast with
  | @found j q hq hBelow hBy hAfter =>
      have hLength := (List.getElem?_eq_some_iff.mp hq).1
      have hPlace : (UInt64.ofNat j).toNat = j :=
        UInt64.toNat_ofNat_of_lt' (Nat.lt_of_lt_of_le hLength hSound.records.countable)
      obtain ⟨before, after, hBefore, hLater, hOrder⟩ := h.ascends hReach hSound (Nat.zero_le j) hp hq
      cases hStamp.symm.trans hBefore
      obtain ⟨stamp', hStamp', hTime⟩ := hBy
      cases hLater.symm.trans hStamp'
      have hEarly : stamp ≤ time := Int64.le_trans hOrder hTime
      refine ⟨fun _ => ⟨.ofNat j, q.root, rfl, ?_, ?_⟩, ⟨fun hLate => ?_, nofun⟩, nofun⟩
      · rw [hSound.records.rootAt?_eq, hPlace, hq, Option.map_some]
      · exact h.lastUntil hReach hSound (hPlace.symm ▸ hq) ⟨_, hStamp', hTime⟩ (hPlace.symm ▸ hAfter)
      · exact absurd hEarly (Int64.not_le.mpr hLate)
  | none hAfter =>
      have hLate : ¬ stamp ≤ time := fun hTime =>
        hAfter 0 p (Nat.zero_le _) hp ⟨stamp, hStamp, hTime⟩
      exact ⟨fun hTime => absurd hTime hLate, ⟨fun _ => ⟨_, rfl⟩, fun _ => Int64.not_le.mp hLate⟩,
        fun e hSame => (Except.error.inj hSame).symm⟩

/-- As long as the clock never went backwards, no version was stamped before an earlier one. What is
found for a time is then the version up to which all were stamped by then and after which all were
stamped later, and nothing is found exactly if already version 0 was stamped later. -/
theorem Reachable.times_follow_chain (hReach : Reachable site s) (hClock : ClockAscends s.log) :
    (∀ v w r q, v ≤ w → site.rootAt? s.store v = some r → site.rootAt? s.store w = some q →
      ∃ before after, r.createdAt = some before ∧ q.createdAt = some after ∧ before ≤ after) ∧
    ∀ (time : Millis) (host : Host), host.store = .ofBackend (.memory s.store) →
      (∀ first stamp, site.rootAt? s.store 0 = some first → first.createdAt = some stamp →
        (stamp ≤ time → ∃ v r, (host.run (Chain.rootBefore site time)).1 = .ok r ∧
          site.rootAt? s.store v = some r ∧ site.LastUntil s.store time v) ∧
        (time < stamp ↔
          ∃ absence, (host.run (Chain.rootBefore site time)).1 = .error (.objectNotFound absence)) ∧
        ∀ e, (host.run (Chain.rootBefore site time)).1 = .error e →
          e = .objectNotFound (.beforeFirst time)) ∧
      (site.rootAt? s.store 0 = none →
        (host.run (Chain.rootBefore site time)).1 = .error (.objectNotFound .uninitialized)) := by
  obtain ⟨published, hSound⟩ := hReach.sound
  have hTimed := hReach.timed hClock
  have hRoots := hSound.records.rootAt?_eq
  refine ⟨fun v w r q hLe hr hq => ?_, fun time host hStore => ⟨fun first stamp hFirst hStamp => ?_,
    fun hNone => ?_⟩⟩
  · rw [hRoots] at hr hq
    obtain ⟨p, hp, rfl⟩ := Option.map_eq_some_iff.mp hr
    obtain ⟨p', hp', rfl⟩ := Option.map_eq_some_iff.mp hq
    exact hTimed.ascends hReach hSound (UInt64.le_iff_toNat_le.mp hLe) hp hp'
  · rw [hRoots, UInt64.toNat_zero] at hFirst
    obtain ⟨p, hp, rfl⟩ := Option.map_eq_some_iff.mp hFirst
    have hSome : published ≠ [] := List.ne_nil_of_mem (List.mem_of_getElem? hp)
    obtain ⟨outcome, hYields, hLast⟩ :=
      (Host.shows site s.store).yields_rootBefore hSound.records hSome time
    rw [Host.run, (hYields host hStore).1]
    exact hTimed.decides hReach hSound hp hStamp hLast
  · rw [hRoots, UInt64.toNat_zero, Option.map_eq_none_iff] at hNone
    have hEmpty : published = [] := List.eq_nil_of_length_eq_zero
      (Nat.le_zero.mp (List.getElem?_eq_none_iff.mp hNone))
    rw [Host.run, Chain.rootBefore, Chain.Search.run_eq]
    exact (((Host.shows site s.store).yields_latestVersion_of_none hSound.records hEmpty).bind_error
      host hStore).1

/-- The state after the race, with a clock that goes on at every event. -/
def afterTimedRace : System :=
  play .top { Supply.counting 0 with time := fun n => Int64.ofNat n } Move.race

/-- Client 2 stamped version 1 later than client 1 had stamped version 0, and with the time of version 0
that version is found. -/
theorem times_follow_chain_inRace : ClockAscends afterTimedRace.log ∧
    ∃ first second before after, Site.top.rootAt? afterTimedRace.store 0 = some first ∧
      Site.top.rootAt? afterTimedRace.store 1 = some second ∧ first.createdAt = some before ∧
      second.createdAt = some after ∧ before < after ∧
      ∀ host : Host, host.store = .ofBackend (.memory afterTimedRace.store) →
        (host.run (Chain.rootBefore .top before)).1 = .ok first := by
  have hReach : Reachable .top afterTimedRace := reachable_play fun _ _ => Move.fits_race
  have hClock : ClockAscends afterTimedRace.log := by
    rw [ClockAscends]
    decide +kernel
  have hStamps : (Site.top.rootAt? afterTimedRace.store 0).bind (·.createdAt) = some 4 ∧
      (Site.top.rootAt? afterTimedRace.store 1).bind (·.createdAt) = some 26 := by
    decide +kernel
  obtain ⟨first, hFirst, hBefore⟩ := Option.bind_eq_some_iff.mp hStamps.1
  obtain ⟨second, hSecond, hAfter⟩ := Option.bind_eq_some_iff.mp hStamps.2
  refine ⟨hClock, first, second, 4, 26, hFirst, hSecond, hBefore, hAfter, by decide,
    fun host hStore => ?_⟩
  obtain ⟨hFound, -⟩ := ((hReach.times_follow_chain hClock).2 4 host hStore).1 first 4 hFirst hBefore
  obtain ⟨v, r, hRun, hRoot, hLast⟩ := hFound (Int64.le_refl 4)
  have hZero : v = 0 := by
    by_contra hLater
    have hOne : 1 ≤ v := by
      rw [UInt64.le_iff_toNat_le]
      exact Nat.one_le_iff_ne_zero.mpr fun hNone => hLater (UInt64.toNat_inj.mp hNone)
    obtain ⟨q, stamp, hq, hStamp, hTime⟩ := hLast.upTo 1 hOne
    cases hSecond.symm.trans hq
    cases hAfter.symm.trans hStamp
    exact absurd hTime (by decide)
  rw [hZero, hFirst] at hRoot
  cases hRoot
  exact hRun

end System

end SnapshotCatalog
