import Mathlib.Data.Set.Function
import SnapshotCatalog.Storage.Backend
import SnapshotCatalog.Proofs.Normalization
import SnapshotCatalog.Proofs.Probes
import SnapshotCatalog.Proofs.Sessions
import SnapshotCatalog.Proofs.StillStore
/-!
Stores are interchangeable. A store that logs its calls and refuses none does what a store in memory does.
A bucket keeps objects under keys of its own, but no two keys of a lakehouse become one, so it mirrors a
store in memory object by object; it tells the same about them, apart from the keys that probes show,
which no operation looks at. So whole sessions, and visits that read roots by themselves, get the same
answers, whatever the store.
-/
namespace SnapshotCatalog

open Storage (Memory Backend Call)

/-! ### A store of any kind -/

/-- A store of any kind, and how much of each supply was handed out. -/
structure Outlet where
  backend : Backend
  uuids : Nat
  transactionIds : Nat
  times : Nat

namespace Outlet

def opened (backend : Backend) : Outlet := ⟨backend, 0, 0, 0⟩

/-- Answers a request. -/
def answer (supply : Supply) : (r : Request) → Outlet → r.Answer × Outlet
  | .call c, o =>
    let (reply, backend) := o.backend.answer c
    (reply, { o with backend })
  | .freshUuid, o => (supply.uuid o.uuids, { o with uuids := o.uuids + 1 })
  | .freshTransactionId, o =>
    (supply.transactionId o.transactionIds, { o with transactionIds := o.transactionIds + 1 })
  | .clock, o => (supply.time o.times, { o with times := o.times + 1 })
  | .record _, o => ((), o)

end Outlet

/-! ### Sessions that also read roots -/

/-- A read of one root, without an operation. -/
inductive ChainRead where
  | latest
  | ofVersion (version : Version)
  | ofPath (path : String)

def ChainRead.program (site : Site) : ChainRead → Program Reply
  | .latest => (Chain.latestRoot site).replying .root
  | .ofVersion version => (Chain.readRoot site version).replying .root
  | .ofPath path => (Chain.readRootAt site path).replying .root

/-- The calls of a session, with reads of roots among them. -/
abbrev Visit := List (Operation Nat ⊕ ChainRead)

/-- Makes the calls of a visit, with the transactions that were delivered so far. -/
def Visit.run {σ : Type} (site : Site) (answer : (r : Request) → σ → r.Answer × σ) :
    Visit → List Transaction → σ → List (Option (Except Error Reply)) × σ
  | [], _, w => ([], w)
  | .inr read :: rest, held, w =>
    let (outcome, w) := (read.program site).run answer w
    let (answers, w) := run site answer rest held w
    (some outcome :: answers, w)
  | .inl op :: rest, held, w =>
    match op.on (held[·]?) with
    | none =>
      let (answers, w) := run site answer rest held w
      (none :: answers, w)
    | some op =>
      let (outcome, w) := (op.program site).run answer w
      let (answers, w) := run site answer rest (held ++ Reply.delivered outcome) w
      (some outcome :: answers, w)

/-- The answers of a visit over a store, and what is there when it is over. -/
def Visit.over (visit : Visit) (site : Site) (supply : Supply) (backend : Backend) :
    List (Option (Except Error Reply)) × Outlet :=
  visit.run site (Outlet.answer supply) [] (.opened backend)

/-! ### Two stores side by side -/

/-- A kind of store in which calls within a lakehouse are answered as they are in memory, and which then
holds what the store in memory holds. -/
def Replaces (site : Site) (holds : Memory → Backend → Prop) : Prop :=
  ∀ c m backend, (Request.call c).Within site → holds m backend →
    (Request.call c).Alike (Memory.answer c m).1 (backend.answer c).1 ∧
      holds (Memory.answer c m).2 (backend.answer c).2

/-- An outlet holds what a desk holds and has handed out as much. -/
structure Outlet.StandsFor (holds : Memory → Backend → Prop) (d : Desk) (o : Outlet) : Prop where
  objects : holds d.store o.backend
  uuids : o.uuids = d.uuids
  transactionIds : o.transactionIds = d.transactionIds
  times : o.times = d.times

section Visits

variable {site : Site} {supply : Supply} {holds : Memory → Backend → Prop}

theorem Replaces.sideBySide (h : Replaces site holds) (supply : Supply) :
    Program.SideBySide (Request.Within site) (Desk.answer site supply fun _ => .none)
      (Outlet.answer supply) (Outlet.StandsFor holds) := by
  intro r d o hWithin hStands
  obtain ⟨hObjects, hUuids, hTransactionIds, hTimes⟩ := hStands
  cases r with
  | call c =>
      rw [Desk.answer_call_undisturbed]
      obtain ⟨hReply, hAfter⟩ := h c d.store o.backend hWithin hObjects
      exact ⟨hReply, hAfter, hUuids, hTransactionIds, hTimes⟩
  | freshUuid =>
      exact ⟨congrArg supply.uuid hUuids.symm, hObjects, congrArg (· + 1) hUuids, hTransactionIds, hTimes⟩
  | freshTransactionId =>
      exact ⟨congrArg supply.transactionId hTransactionIds.symm, hObjects, hUuids,
        congrArg (· + 1) hTransactionIds, hTimes⟩
  | clock =>
      exact ⟨congrArg supply.time hTimes.symm, hObjects, hUuids, hTransactionIds, congrArg (· + 1) hTimes⟩
  | record measurement => exact ⟨rfl, hObjects, hUuids, hTransactionIds, hTimes⟩

/-- A desk whose store is only read keeps it. -/
theorem Desk.store_run_quiet {α : Type} {p : Program α} (h : p.Asks Request.Quiet) (d : Desk) :
    (p.run (Desk.answer site supply fun _ => .none) d).2.store = d.store := by
  induction p generalizing d with
  | done value => rfl
  | fail e => rfl
  | request r next ih =>
      obtain ⟨hRequest, hNext⟩ := (Program.asks_request r next).mp h
      have hKept : (Desk.answer site supply (fun _ => .none) r d).2.store = d.store := by
        cases r with
        | call c =>
            rw [Desk.answer_call_undisturbed]
            exact Memory.answer_snd_of_not_write hRequest d.store
        | _ => rfl
      exact (ih _ (hNext _) _).trans hKept

namespace ChainRead

theorem blind_program (read : ChainRead) (site : Site) : (read.program site).Blind := by
  cases read with
  | latest => exact (Chain.blind_latestRoot site).replying _
  | ofVersion version =>
      exact (Chain.asks_readRootAt (coversLinks_noProbe site) _).blind.replying _
  | ofPath path => exact (Chain.asks_readRootAt (coversLinks_noProbe site) path).blind.replying _

theorem asks_program {kind : Request → Prop} (hKind : CoversChain site kind)
    (hHint : kind (.call (.get (site.resolve Hint.path)))) (read : ChainRead) :
    (read.program site).Asks kind := by
  cases read with
  | latest => exact (Chain.asks_latestRoot hKind hHint).replying _
  | ofVersion version => exact (Chain.asks_readRootAt hKind.toCoversLinks _).replying _
  | ofPath path => exact (Chain.asks_readRootAt hKind.toCoversLinks path).replying _

end ChainRead

/-- By induction on its calls, a visit over any store goes as it does over one in memory. -/
theorem Visit.run_sideBySide {σ : Type} {right : (r : Request) → σ → r.Answer × σ}
    {related : Desk → σ → Prop}
    (hSides : Program.SideBySide (Request.Within site) (Desk.answer site supply fun _ => .none) right related)
    (visit : Visit) (hFits : ∀ op, .inl op ∈ visit → op.Fits) {s : System} {held : List Transaction}
    {d : Desk} {w : σ} (hAttends : s.Attends site 0 d.store held) (h : related d w) :
    (visit.run site (Desk.answer site supply fun _ => .none) held d).1 =
        (visit.run site right held w).1 ∧
      related (visit.run site (Desk.answer site supply fun _ => .none) held d).2
        (visit.run site right held w).2 := by
  induction visit generalizing s held d w with
  | nil => exact ⟨rfl, h⟩
  | cons call rest ih =>
      have hRest : ∀ op, .inl op ∈ rest → op.Fits := fun op hMem =>
        hFits op (List.mem_cons_of_mem _ hMem)
      cases call with
      | inr read =>
          have hAsks : (read.program site).Asks (Request.Within site) :=
            read.asks_program (coversChain_within site) ⟨_, .hint, rfl⟩
          have hQuiet : (read.program site).Asks Request.Quiet :=
            read.asks_program (coversChain_quiet site) rfl
          obtain ⟨hOutcome, hRelated⟩ := (read.blind_program site).run_eq hAsks hSides h
          rw [← Desk.store_run_quiet hQuiet d] at hAttends
          obtain ⟨hReplies, hEnd⟩ := ih hRest hAttends hRelated
          rw [run, run]
          dsimp only
          rw [← hOutcome]
          exact ⟨congrArg (_ :: ·) hReplies, hEnd⟩
      | inl op =>
          rw [run, run]
          cases hFound : op.on (held[·]?) with
          | none =>
              obtain ⟨hReplies, hEnd⟩ := ih hRest hAttends h
              exact ⟨congrArg (none :: ·) hReplies, hEnd⟩
          | some found =>
              have hHeld : ∀ t, found.about? = some t → t ∈ held := fun t =>
                Operation.mem_of_about?_on hFound
              have hAsks : (found.program site).Asks (Request.Within site) := by
                refine Operation.asks_within fun t hAbout => ?_
                obtain ⟨handle, hHandle, rfl⟩ := hAttends.handles t (hHeld t hAbout)
                exact hAttends.reachable.settled hHandle
              obtain ⟨hOutcome, hRelated⟩ := (found.blind_program site).run_eq hAsks hSides h
              obtain ⟨s', -, hNext⟩ := hAttends.call (Desk.answersFrom site supply) found hHeld
                (Operation.fits_on hFound (hFits op List.mem_cons_self))
              obtain ⟨hReplies, hEnd⟩ := ih hRest hNext hRelated
              dsimp only
              rw [← hOutcome]
              exact ⟨congrArg (_ :: ·) hReplies, hEnd⟩

end Visits

/-! ### The stores -/

namespace Storage

/-- A store in memory that is the other one. -/
def Backend.IsMemory (m : Memory) (backend : Backend) : Prop := backend = .memory m

/-- A store that logs its calls, refuses none, and holds the same objects. -/
def Backend.IsTracing (m : Memory) (backend : Backend) : Prop :=
  ∃ t, backend = .tracing t ∧ t.objects = m ∧ t.refusals = []

/-- Under the keys of a lakehouse, normalised, there are the objects of a store in memory, and there are
no others. -/
abbrev Mirrors (site : Site) (m : Memory) (objects : TextMap Blob) : Prop :=
  TextMap.Mirrors Path.key site.Owns m objects

/-- A bucket that mirrors a store in memory. -/
def Backend.IsBucket (site : Site) (m : Memory) (backend : Backend) : Prop :=
  ∃ b, backend = .bucket b ∧ Mirrors site m b.objects

end Storage

open Storage

variable {site : Site}

theorem replaces_memory (site : Site) : Replaces site Backend.IsMemory := by
  rintro c m _ - rfl
  exact ⟨.refl _ _, rfl⟩

theorem replaces_tracing (site : Site) : Replaces site Backend.IsTracing := by
  rintro c m _ - ⟨t, rfl, rfl, hRefusals⟩
  show (Request.call c).Alike _ (Tracing.answer c t).1 ∧
    Backend.IsTracing _ (.tracing (Tracing.answer c t).2)
  rw [Tracing.answer_eq hRefusals]
  exact ⟨.refl _ _, _, rfl, rfl, hRefusals⟩

theorem Storage.Mirrors.empty (site : Site) : Mirrors site .empty .empty := TextMap.Mirrors.empty _ _

theorem replaces_bucket (site : Site) : Replaces site (Backend.IsBucket site) := by
  rintro c m _ hWithin ⟨b, rfl, hMirrors⟩
  show (Request.call c).Alike _ (Bucket.answer c b).1 ∧
    Backend.IsBucket site _ (.bucket (Bucket.answer c b).2)
  cases c with
  | get key =>
      rw [Memory.answer, Bucket.answer, hMirrors.same key hWithin]
      cases m.get? key with
      | none => exact ⟨rfl, b, rfl, hMirrors⟩
      | some blob => exact ⟨rfl, b, rfl, hMirrors⟩
  | head key =>
      rw [Memory.answer, Bucket.answer, hMirrors.same key hWithin]
      refine ⟨?_, b, rfl, hMirrors⟩
      cases m.get? key <;> rfl
  | put key blob mode =>
      rw [Memory.answer, Bucket.answer, hMirrors.contains_eq hWithin]
      split
      · exact ⟨rfl, b, rfl, hMirrors⟩
      · exact ⟨rfl, _, rfl, hMirrors.insert (fun _ _ hKey hOther => hKey.eq_of_key hOther) hWithin blob⟩
  | delete key => exact hWithin.elim
  | list start => exact hWithin.elim

/-- The keys of a bucket are those of the store that it mirrors, one for each, with the same objects. -/
theorem Storage.Mirrors.bijOn {m : Memory} {objects : TextMap Blob} (h : Mirrors site m objects) :
    Set.BijOn Path.key {key | m.contains key = true} {key | objects.contains key = true} ∧
      ∀ key, m.contains key = true → objects.get? (Path.key key) = m.get? key := by
  have hOwned {key : String} (hKey : m.contains key = true) : site.Owns key := by
    obtain ⟨blob, hGet⟩ := Option.isSome_iff_exists.mp hKey
    exact h.owned key blob hGet
  refine ⟨⟨fun key hKey => ?_, fun key hKey other hOther hSame => ?_, fun kept hKept => ?_⟩,
    fun key hKey => h.same key (hOwned hKey)⟩
  · exact (h.contains_eq (hOwned hKey)).trans hKey
  · exact (hOwned hKey).eq_of_key (hOwned hOther) hSame
  · obtain ⟨blob, hGet⟩ := Option.isSome_iff_exists.mp hKept
    obtain ⟨key, hKey, rfl⟩ := h.onto kept blob hGet
    exact ⟨key, (h.contains_eq hKey).symm.trans hKept, rfl⟩

/-! ### Whole visits -/

namespace Visit

variable {supply : Supply} {holds : Memory → Backend → Prop}

/-- A visit to a store that replaces one in memory gets the answers that it gets at a desk. -/
theorem over_eq (visit : Visit) (hFits : ∀ op, .inl op ∈ visit → op.Fits) (hReplaces : Replaces site holds)
    {backend : Backend} (hEmpty : holds .empty backend) (supply : Supply) :
    (visit.over site supply backend).1 =
        (visit.run site (Desk.answer site supply fun _ => .none) [] .empty).1 ∧
      holds (visit.run site (Desk.answer site supply fun _ => .none) [] .empty).2.store
        (visit.over site supply backend).2.backend := by
  have hStart : Outlet.StandsFor holds Desk.empty (.opened backend) := ⟨hEmpty, rfl, rfl, rfl⟩
  obtain ⟨hAnswers, hStands⟩ := visit.run_sideBySide (hReplaces.sideBySide supply) hFits
    (System.attends_initial site 0) hStart
  exact ⟨hAnswers.symm, hStands.objects⟩

/-- Over a store in memory, one that logs its calls and a bucket, every visit gets the same answers, and
when it is over they hold the same objects, the bucket each under its normalised key. -/
theorem backends_interchangeable (site : Site) (supply : Supply) (visit : Visit)
    (hFits : ∀ op, .inl op ∈ visit → op.Fits) :
    (visit.over site supply (.tracing .empty)).1 = (visit.over site supply (.memory .empty)).1 ∧
    (visit.over site supply (.bucket .empty)).1 = (visit.over site supply (.memory .empty)).1 ∧
    ∃ m t b, (visit.over site supply (.memory .empty)).2.backend = .memory m ∧
      (visit.over site supply (.tracing .empty)).2.backend = .tracing t ∧
      (visit.over site supply (.bucket .empty)).2.backend = .bucket b ∧ t.objects = m ∧
      Set.BijOn Path.key {key | m.contains key = true} {key | b.objects.contains key = true} ∧
      ∀ key, m.contains key = true → b.objects.get? (Path.key key) = m.get? key := by
  obtain ⟨hMemory, hMemoryEnd⟩ := visit.over_eq hFits (replaces_memory site)
    (rfl : Backend.IsMemory .empty (.memory .empty)) supply
  obtain ⟨hTracing, t, hTracingEnd, hObjects, -⟩ := visit.over_eq hFits (replaces_tracing site)
    ⟨.empty, rfl, rfl, rfl⟩ supply
  obtain ⟨hBucket, b, hBucketEnd, hMirrors⟩ := visit.over_eq hFits (replaces_bucket site)
    ⟨.empty, rfl, .empty site⟩ supply
  obtain ⟨hKeys, hSame⟩ := hMirrors.bijOn
  exact ⟨hTracing.trans hMemory.symm, hBucket.trans hMemory.symm, _, t, b, hMemoryEnd, hTracingEnd,
    hBucketEnd, hObjects, hKeys, hSame⟩

/-- A namespace is added whose name a bucket encodes, and a root is read that does not exist. -/
def encoded : Visit :=
  [.inl (.create .standard), .inl (.begin .snapshot),
    .inl (.change 0 (.createNamespace "né#" .blank)), .inr (.ofVersion 7)]

theorem fits_encoded : ∀ op, .inl op ∈ encoded → op.Fits := by
  have hAll : ∀ call ∈ encoded, ∀ op ∈ call.getLeft?, op.Fits := by decide +kernel
  exact fun op hMem => hAll _ hMem op rfl

/-- In a directory with an empty segment a bucket keeps the namespace under another key, and the answers
are those over the other stores. -/
theorem backends_interchangeable_encoded : ∃ site, (Site.below "/a//b/").toOption = some site ∧
    (encoded.over site (.counting 5) (.tracing .empty)).1 =
      (encoded.over site (.counting 5) (.memory .empty)).1 ∧
    (encoded.over site (.counting 5) (.bucket .empty)).1 =
      (encoded.over site (.counting 5) (.memory .empty)).1 ∧
    (((encoded.over site (.counting 5) (.bucket .empty)).2.backend.answer
        (.head "a//b/0011/0111/0001/00001001-né#-00000000-0000-0000-0000-000000000001.binpb")).1.toOption.map
          (Option.map (·.key))) =
      some (some "a/b/0011/0111/0001/00001001-n%C3%A9%23-00000000-0000-0000-0000-000000000001.binpb") := by
  obtain ⟨hTracing, hBucket, -⟩ :=
    backends_interchangeable ⟨some "a//b"⟩ (.counting 5) encoded fits_encoded
  exact ⟨⟨some "a//b"⟩, by decide +kernel, hTracing, hBucket, by decide +kernel⟩

end Visit

end SnapshotCatalog
