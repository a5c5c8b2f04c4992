import SnapshotCatalog.Proofs.Sessions
import SnapshotCatalog.Proofs.StillStore
/-!
The hint never matters. Two runs of a program that does not touch the hint go on in step, whatever
is done to the hint in between. The programs that do touch it are the search for the newest version,
which finds that version whatever it is told, and the write of the hint, whose outcome nobody sees.
-/
namespace SnapshotCatalog

open Storage (Memory Call)

/-- A request that neither reads nor writes the hint. -/
def Request.AvoidsHint (site : Site) : Request → Prop
  | .call (.list _) => False
  | .call c => c.key ≠ site.resolve Hint.path
  | _ => True

/-- Two stores hold the same objects everywhere but at the hint. -/
def Site.Matches (site : Site) (m m' : Memory) : Prop :=
  ∀ key, key ≠ site.resolve Hint.path → m.get? key = m'.get? key

namespace Site.Matches

variable {site : Site} {m m' m'' : Memory}

theorem refl (m : Memory) : site.Matches m m := fun _ _ => rfl

theorem symm (h : site.Matches m m') : site.Matches m' m := fun key hKey => (h key hKey).symm

theorem trans (h : site.Matches m m') (hMore : site.Matches m' m'') : site.Matches m m'' :=
  fun key hKey => (h key hKey).trans (hMore key hKey)

theorem insert (h : site.Matches m m') (key : String) (blob : Storage.Blob) :
    site.Matches (m.insert key blob) (m'.insert key blob) := by
  intro other hOther
  by_cases hSame : other = key
  · rw [hSame, TextMap.get?_insert_self, TextMap.get?_insert_self]
  · rw [TextMap.get?_insert_of_ne _ hSame, TextMap.get?_insert_of_ne _ hSame, h other hOther]

theorem erase (h : site.Matches m m') (key : String) :
    site.Matches (m.erase key) (m'.erase key) := by
  intro other hOther
  by_cases hSame : other = key
  · rw [hSame, TextMap.get?_erase_self, TextMap.get?_erase_self]
  · rw [TextMap.get?_erase_of_ne _ hSame, TextMap.get?_erase_of_ne _ hSame, h other hOther]

theorem tamper (mischief : Mischief) (m : Memory) : site.Matches m (mischief.tamper site m) := by
  intro key hKey
  rw [Mischief.tamper]
  split
  · rfl
  · rw [TextMap.get?_erase_of_ne _ hKey]
  · rw [TextMap.get?_insert_of_ne _ hKey]

/-- A call that avoids the hint is answered alike, and leaves the stores alike. -/
theorem answer (h : site.Matches m m') {c : Call} (hAvoids : (Request.call c).AvoidsHint site) :
    (Memory.answer c m).1 = (Memory.answer c m').1 ∧
      site.Matches (Memory.answer c m).2 (Memory.answer c m').2 := by
  cases c with
  | get key =>
      rw [Memory.answer_get_snd, Memory.answer_get_snd]
      refine ⟨?_, h⟩
      have hGet := h key hAvoids
      rw [Memory.answer, Memory.answer, hGet]
      split <;> rfl
  | put key blob mode =>
      have hContains : m.contains key = m'.contains key := by
        rw [TextMap.contains, TextMap.contains, h key hAvoids]
      rw [Memory.answer, Memory.answer, hContains]
      split
      · exact ⟨rfl, h⟩
      · exact ⟨rfl, h.insert key blob⟩
  | delete key => exact ⟨rfl, h.erase key⟩
  | list start => exact hAvoids.elim
  | head key =>
      refine ⟨?_, h⟩
      rw [Memory.answer, Memory.answer, h key hAvoids]

end Site.Matches

theorem Site.Matches.grows {site : Site} {m m' : Memory} (h : site.Matches m m') :
    site.Grows m m' :=
  fun key _ hKey hGet => (h key hKey).symm.trans hGet

/-- Two desks that differ at most at the hint, and in how often they were asked. -/
structure Desk.Alike (site : Site) (d d' : Desk) : Prop where
  store : site.Matches d.store d'.store
  uuids : d.uuids = d'.uuids
  transactionIds : d.transactionIds = d'.transactionIds
  times : d.times = d'.times

namespace Desk

variable {site : Site} {supply : Supply} {mischief other : Nat → Mischief} {d d' d'' : Desk}

theorem Alike.symm (h : d.Alike site d') : d'.Alike site d :=
  ⟨h.store.symm, h.uuids.symm, h.transactionIds.symm, h.times.symm⟩

theorem Alike.trans (h : d.Alike site d') (hMore : d'.Alike site d'') : d.Alike site d'' :=
  ⟨h.store.trans hMore.store, h.uuids.trans hMore.uuids,
    h.transactionIds.trans hMore.transactionIds, h.times.trans hMore.times⟩

theorem Alike.refl (d : Desk) : d.Alike site d := ⟨.refl _, rfl, rfl, rfl⟩

theorem Alike.disturb (h : d.Alike site d') (mischief : Nat → Mischief) :
    d.Alike site (d'.disturb site mischief) :=
  h.trans ⟨.tamper _ _, rfl, rfl, rfl⟩

/-- A call that avoids the hint is never made to fail. -/
theorem answer_call {c : Call} (hAvoids : (Request.call c).AvoidsHint site) (d : Desk) :
    answer site supply mischief (.call c) d =
      (d.disturb site mischief).answerCall none c := by
  rw [answer, Mischief.fault?, if_neg]
  cases c with
  | list start => exact hAvoids.elim
  | _ => exact hAvoids

/-- A request that avoids the hint is answered alike at two such desks, and leaves them so. -/
theorem Alike.answer (supply : Supply) (mischief other : Nat → Mischief) {r : Request}
    (h : d.Alike site d') (hAvoids : r.AvoidsHint site) :
    (Desk.answer site supply mischief r d).1 = (Desk.answer site supply other r d').1 ∧
      (Desk.answer site supply mischief r d).2.Alike site
        (Desk.answer site supply other r d').2 := by
  have hDisturbed : (d.disturb site mischief).Alike site (d'.disturb site other) :=
    (h.symm.disturb mischief).symm.disturb other
  cases r with
  | call c =>
      obtain ⟨hReply, hStore⟩ := hDisturbed.store.answer hAvoids
      rw [answer_call hAvoids, answer_call hAvoids]
      exact ⟨hReply, hStore, h.uuids, h.transactionIds, h.times⟩
  | freshUuid =>
      exact ⟨congrArg supply.uuid h.uuids, hDisturbed.store, congrArg (· + 1) h.uuids,
        h.transactionIds, h.times⟩
  | freshTransactionId =>
      exact ⟨congrArg supply.transactionId h.transactionIds, hDisturbed.store, h.uuids,
        congrArg (· + 1) h.transactionIds, h.times⟩
  | clock =>
      exact ⟨congrArg supply.time h.times, hDisturbed.store, h.uuids, h.transactionIds,
        congrArg (· + 1) h.times⟩
  | record measurement => exact ⟨rfl, hDisturbed⟩

/-- What a desk shows does not depend on the hint. -/
theorem shows (d : Desk) : Shows (answer site supply mischief) (d.Alike site ·) site d.store where
  get key e hKey h := by
    have hAvoids : (Request.call (.get key)).AvoidsHint site := hKey
    have hNow := h.disturb mischief
    rw [answer_call hAvoids]
    refine ⟨(hNow.store.answer hAvoids).1.symm, ?_, hNow.uuids, hNow.transactionIds, hNow.times⟩
    show site.Matches d.store (Memory.answer (.get key) _).2
    rw [Memory.answer_get_snd]
    exact hNow.store
  head key e hKey h := by
    have hAvoids : (Request.call (.head key)).AvoidsHint site := hKey
    have hNow := h.disturb mischief
    rw [answer_call hAvoids]
    exact ⟨(hNow.store.answer hAvoids).1.symm, hNow⟩
  hint e h := by
    have hNow := h.disturb mischief
    rw [answer]
    cases (mischief e.requests).fault? site (.get (site.resolve Hint.path)) with
    | some error => exact hNow
    | none =>
        refine ⟨?_, hNow.uuids, hNow.transactionIds, hNow.times⟩
        show site.Matches d.store (Memory.answer (.get _) _).2
        rw [Memory.answer_get_snd]
        exact hNow.store
  record _ _ h := h.disturb mischief

/-- A write of the hint makes no difference to a desk. -/
theorem Alike.answer_overwrite {blob : Storage.Blob} (h : d.Alike site d') :
    d.Alike site
      (Desk.answer site supply mischief (.call (.put (site.resolve Hint.path) blob .overwrite)) d').2 := by
  have hNow := h.disturb mischief
  rw [Desk.answer]
  cases (mischief d'.requests).fault? site (.put (site.resolve Hint.path) blob .overwrite) with
  | some error => exact hNow
  | none =>
      refine ⟨hNow.store.trans fun key hKey => ?_, hNow.uuids, hNow.transactionIds, hNow.times⟩
      show _ = (Memory.answer (.put _ _ .overwrite) _).2.get? key
      rw [Memory.answer, if_neg fun hBoth => Storage.WriteMode.noConfusion hBoth.1,
        TextMap.get?_insert_of_ne _ hKey]

/-- A write of the hint ends well, whatever happens to it. -/
theorem yields_write (site : Site) (supply : Supply) (mischief : Nat → Mischief) (d : Desk)
    (v : Version) :
    Yields (Desk.answer site supply mischief) (d.Alike site ·) (Hint.write site v) (.ok ()) := by
  have hKind : ∀ r e, (∃ blob, r = .call (.put (site.resolve Hint.path) blob .overwrite)) →
      d.Alike site e → d.Alike site (Desk.answer site supply mischief r e).2 := by
    rintro _ e ⟨blob, rfl⟩ h
    exact h.answer_overwrite
  have hRecord : Yields (Desk.answer site supply mischief) (d.Alike site ·)
      (Program.record .hintWriteFailure) (.ok ()) := (shows d).yields_record _
  refine .bind_any (fun e h => ?_) fun outcome => ?_
  · rw [Program.run_attempt]
    exact ⟨_, rfl, still_run hKind (site.asks_overwrite ⟨_, rfl⟩) h⟩
  · cases outcome with
    | ok value => exact yields_done ()
    | error e => exact hRecord

end Desk

section Runs

variable {α β : Type} {site : Site} {supply : Supply} {mischief other : Nat → Mischief} {d d' : Desk}

/-- At two desks, a program ends with the same outcome and leaves desks that differ at most at the
hint. -/
def Program.EndsAlike (site : Site) (supply : Supply) (mischief other : Nat → Mischief)
    (p : Program α) (d d' : Desk) : Prop :=
  (p.run (Desk.answer site supply mischief) d).1 = (p.run (Desk.answer site supply other) d').1 ∧
    (p.run (Desk.answer site supply mischief) d).2.Alike site
      (p.run (Desk.answer site supply other) d').2

/-- A program ends alike at all desks that differ at most at the hint. -/
def Program.InStep (site : Site) (supply : Supply) (mischief other : Nat → Mischief)
    (p : Program α) : Prop :=
  ∀ d d', d.Alike site d' → p.EndsAlike site supply mischief other d d'

namespace Program

theorem EndsAlike.bind {p : Program α} {next : α → Program β}
    (h : p.EndsAlike site supply mischief other d d')
    (hNext : ∀ value, (next value).InStep site supply mischief other) :
    (p.bind next).EndsAlike site supply mischief other d d' := by
  obtain ⟨hOutcome, hDesk⟩ := h
  unfold EndsAlike
  rw [run_bind, run_bind]
  generalize p.run (Desk.answer site supply mischief) d = left at hOutcome hDesk ⊢
  generalize p.run (Desk.answer site supply other) d' = right at hOutcome hDesk ⊢
  obtain ⟨outcome, e⟩ := left
  obtain ⟨_, e'⟩ := right
  cases hOutcome
  cases outcome with
  | ok value => exact hNext value e e' hDesk
  | error error => exact ⟨rfl, hDesk⟩

theorem EndsAlike.attempt {p : Program α} (h : p.EndsAlike site supply mischief other d d') :
    p.attempt.EndsAlike site supply mischief other d d' := by
  unfold EndsAlike
  rw [run_attempt, run_attempt]
  exact ⟨congrArg Except.ok h.1, h.2⟩

theorem InStep.bind {p : Program α} {next : α → Program β}
    (h : p.InStep site supply mischief other)
    (hNext : ∀ value, (next value).InStep site supply mischief other) :
    (p.bind next).InStep site supply mischief other :=
  fun d d' hAlike => (h d d' hAlike).bind hNext

/-- Programs that avoid the hint go on in step. -/
theorem inStep_of_asks {p : Program α} (h : p.Asks (Request.AvoidsHint site)) :
    p.InStep site supply mischief other := by
  induction p with
  | done value => exact fun d d' hAlike => ⟨rfl, hAlike⟩
  | fail e => exact fun d d' hAlike => ⟨rfl, hAlike⟩
  | request r next ih =>
      intro d d' hAlike
      obtain ⟨hRequest, hNext⟩ := (asks_request r next).mp h
      obtain ⟨hReply, hDesk⟩ := hAlike.answer supply mischief other hRequest
      unfold EndsAlike
      rw [run, run]
      generalize Desk.answer site supply mischief r d = left at hReply hDesk ⊢
      generalize Desk.answer site supply other r d' = right at hReply hDesk ⊢
      obtain ⟨reply, e⟩ := left
      obtain ⟨_, e'⟩ := right
      cases hReply
      exact ih reply (hNext reply) e e' hDesk

end Program

theorem Hint.inStep_write (v : Version) : (write site v).InStep site supply mischief other := by
  intro d d' hAlike
  have hLeft := Desk.yields_write site supply mischief d v d (.refl d)
  have hRight := Desk.yields_write site supply other d v d' hAlike
  exact ⟨hLeft.1.trans hRight.1.symm, hLeft.2.symm.trans hRight.2⟩

/-! ### The operations -/

/-- A transaction for which neither the definition of the lakehouse nor any row lies at the hint. -/
structure Transaction.AvoidsHint (t : Transaction) : Prop where
  lakehouse : t.running.lakehouseDefPath ≠ Hint.path
  rows : t.running.Placed

theorem Handle.Known.avoidsHint {h : Handle} {m : Memory} {published : List Publication}
    (hKnown : h.Known site m published) (hRecords : Records site m published) :
    h.transaction.AvoidsHint := by
  obtain ⟨path, v, hVersion⟩ := hKnown.isVersion hRecords
  obtain ⟨-, d, hSound⟩ := hKnown
  refine ⟨fun hSame => ?_, hSound.placed_running hVersion.placed⟩
  rw [hSound.lakehouseDefPath_running] at hSame
  exact hSound.governs.ne_hint (congrArg site.resolve hSame)

section Operations

variable {published : List Publication}

theorem coversChain_avoidsHint (site : Site) : CoversChain site (Request.AvoidsHint site) where
  head v := site.resolve_ne_hint (RootPath.ofVersion_ne_hint v)
  get v := site.resolve_ne_hint (RootPath.ofVersion_ne_hint v)
  record _ := trivial

open Program

namespace Chain

/-- The search for the newest version finds the same version, whatever is done to the hint. -/
theorem endsAlike_latestVersion (supply : Supply) (mischief other : Nat → Mischief)
    (hRecords : Records site d.store published) (h : d.Alike site d') :
    (latestVersion site).EndsAlike site supply mischief other d d' := by
  obtain ⟨outcome, hOutcome⟩ : ∃ outcome, ∀ k,
      Yields (Desk.answer site supply k) (d.Alike site ·) (latestVersion site) outcome := by
    cases published with
    | nil => exact ⟨_, fun k => (Desk.shows d).yields_latestVersion_of_none hRecords rfl⟩
    | cons first rest =>
        have hCount := hRecords.countable
        rw [List.length_cons] at hCount
        have hTop : (UInt64.ofNat rest.length).toNat = rest.length :=
          UInt64.toNat_ofNat_of_lt' (Nat.lt_of_succ_le hCount)
        refine ⟨.ok (.ofNat rest.length), fun k =>
          (Desk.shows d).yields_latestVersion hRecords ?_⟩
        rw [hTop, List.length_cons]
  have hLeft := hOutcome mischief d (.refl d)
  have hRight := hOutcome other d' h
  exact ⟨hLeft.1.trans hRight.1.symm, hLeft.2.symm.trans hRight.2⟩

theorem endsAlike_latestRoot (supply : Supply) (mischief other : Nat → Mischief)
    (hRecords : Records site d.store published) (h : d.Alike site d') :
    (latestRoot site).EndsAlike site supply mischief other d d' :=
  (endsAlike_latestVersion supply mischief other hRecords h).bind fun _ =>
    inStep_of_asks (asks_readRootAt (coversChain_avoidsHint site).toCoversLinks _)

theorem endsAlike_search (supply : Supply) (mischief other : Nat → Mischief) (s : Search)
    (hRecords : Records site d.store published) (h : d.Alike site d') :
    (s.run site).EndsAlike site supply mischief other d d' :=
  (endsAlike_latestRoot supply mischief other hRecords h).bind fun head =>
    inStep_of_asks (Asks.bind (asks_ofExcept _) fun _ =>
      s.asks_down (coversChain_avoidsHint site).toCoversLinks _ head)

theorem endsAlike_history (supply : Supply) (mischief other : Nat → Mischief) (polls : Nat)
    (hRecords : Records site d.store published) (h : d.Alike site d') :
    (history site polls).EndsAlike site supply mischief other d d' := by
  cases polls with
  | zero => exact ⟨rfl, h⟩
  | succ polls =>
      have hPoll : (poll site .head).EndsAlike site supply mischief other d d' :=
        (endsAlike_latestRoot supply mischief other hRecords h).bind fun _ =>
          inStep_of_asks (asks_done _)
      refine hPoll.attempt.bind fun answer => inStep_of_asks ?_
      match answer with
      | .error e => exact asks_done _
      | .ok none => exact asks_done _
      | .ok (some r) =>
          exact Asks.bind (asks_readOn (coversChain_avoidsHint site).toCoversLinks polls
            fun hHead => nomatch hHead) fun _ => asks_done _

end Chain

namespace Lakehouse

theorem inStep_publish (v : Version) (definition : LakehouseDef) (r : Root) :
    (publish site v definition r).InStep site supply mischief other := by
  have hClock : clock.Asks (Request.AvoidsHint site) := Asks.request trivial fun _ => asks_done _
  have hCreate (blob : Storage.Blob) :
      (site.create (RootPath.ofVersion v) blob).Asks (Request.AvoidsHint site) :=
    site.asks_create (site.resolve_ne_hint (RootPath.ofVersion_ne_hint v))
  refine (inStep_of_asks hClock).bind fun time => ?_
  refine (inStep_of_asks (asks_ofExcept _)).bind fun _ => ?_
  refine (inStep_of_asks (hCreate _)).bind fun outcome => ?_
  cases outcome with
  | alreadyExists => exact inStep_of_asks (asks_done _)
  | written => exact (Hint.inStep_write v).bind fun _ => inStep_of_asks (asks_done _)

theorem inStep_create (definition : LakehouseDef) :
    (create site definition).InStep site supply mischief other := by
  have hProbe := Chain.asks_hasRoot (coversChain_avoidsHint site).toCoversProbes 0
  refine (inStep_of_asks (asks_ofExcept _)).bind fun _ => (inStep_of_asks hProbe).bind fun found => ?_
  split
  · exact inStep_of_asks (asks_fail _)
  · refine (inStep_of_asks (asks_freshUuid trivial)).bind fun id => ?_
    have hPath : (Request.call (.put (site.resolve (DefinitionPath.ofLakehouse id))
        (.bytes (Definition.encode definition)) .createNew)).AvoidsHint site :=
      site.resolve_ne_hint (DefinitionPath.bears_ofLakehouse id).ne_hint
    refine (inStep_of_asks (Definition.asks_store hPath)).bind fun _ => ?_
    refine (inStep_publish 0 definition _).bind fun published => inStep_of_asks ?_
    cases published with
    | some root => exact asks_done _
    | none => exact asks_fail _

theorem inStep_commit {t : Transaction} (ht : t.AvoidsHint) :
    (commit site t).InStep site supply mischief other := by
  rw [commit]
  cases hDraft : draft t with
  | error e => exact inStep_of_asks (asks_fail e)
  | ok drafted =>
      obtain ⟨version, root⟩ := drafted
      obtain ⟨location, -, -, -, hRoot⟩ := draft_eq_ok hDraft
      have hLoad : (LakehouseDef.load site root.lakehouseDefPath).Asks
          (Request.AvoidsHint site) := by
        apply LakehouseDef.asks_load
        rw [hRoot]
        exact site.resolve_ne_hint ht.lakehouse
      refine (inStep_of_asks hLoad).bind fun definition => ?_
      refine (inStep_publish version definition root).bind fun published => inStep_of_asks ?_
      cases published with
      | none => exact Asks.request trivial fun _ => asks_fail _
      | some root => exact Asks.request trivial fun _ => asks_done _

end Lakehouse

theorem Change.asks_program {t : Transaction} (ht : t.AvoidsHint) (c : Change) :
    (c.program site t).Asks (Request.AvoidsHint site) := by
  rw [c.program_eq]
  have hLook : (Lakehouse.look site t c.target).Asks (Request.AvoidsHint site) := by
    apply Lakehouse.asks_look
    exact site.resolve_ne_hint ht.lakehouse
  refine Asks.bind hLook fun key => ?_
  rcases c.perform_cases with ⟨-, hPerform⟩ | ⟨β, _, x, path, hDefinition, hPerform⟩
  · rw [hPerform]
    exact asks_done _
  · rw [hPerform]
    exact Lakehouse.asks_define trivial fun id =>
      site.resolve_ne_hint (bears_of_definition hDefinition id).ne_hint

theorem Query.asks_avoidsHint {t : Transaction} (ht : t.AvoidsHint) (q : Query) :
    (q.program site t).Asks (Request.AvoidsHint site) := by
  apply q.asks_program
  · exact site.resolve_ne_hint ht.lakehouse
  · intro entry hMem
    obtain ⟨id, hBears⟩ := ht.rows entry hMem
    exact site.resolve_ne_hint hBears.ne_hint

/-- Every operation ends alike, whatever is done to the hint. -/
theorem Operation.endsAlike (supply : Supply) (mischief other : Nat → Mischief)
    (op : Operation Transaction) (hRecords : Records site d.store published)
    (hAvoids : ∀ t, op.about? = some t → t.AvoidsHint) (h : d.Alike site d') :
    (op.program site).EndsAlike site supply mischief other d d' := by
  have hDone {α : Type} (reply : α → Reply) (value : α) :
      (Program.done (reply value)).InStep site supply mischief other := inStep_of_asks (asks_done _)
  have hBegin (root : Root) (isolation : IsolationLevel) :
      (Lakehouse.beginAt root isolation).InStep site supply mischief other :=
    inStep_of_asks (Lakehouse.asks_beginAt trivial trivial root isolation)
  cases op with
  | create definition => exact (Lakehouse.inStep_create definition d d' h).bind (hDone _)
  | begin isolation =>
      exact ((Chain.endsAlike_latestRoot supply mischief other hRecords h).bind
        fun root => hBegin root isolation).bind (hDone _)
  | beginAtVersion version isolation =>
      exact ((Chain.endsAlike_search supply mischief other _ hRecords h).bind
        fun root => hBegin root isolation).bind (hDone _)
  | query t q => exact inStep_of_asks (q.asks_avoidsHint (hAvoids t rfl)) d d' h
  | change t c =>
      exact (inStep_of_asks (c.asks_program (hAvoids t rfl)) d d' h).bind (hDone _)
  | commit t => exact (Lakehouse.inStep_commit (hAvoids t rfl) d d' h).bind (hDone _)
  | latestVersion =>
      exact (Chain.endsAlike_latestVersion supply mischief other hRecords h).bind (hDone _)
  | rootForVersion version =>
      exact (Chain.endsAlike_search supply mischief other _ hRecords h).bind (hDone _)
  | rootBefore time =>
      exact (Chain.endsAlike_search supply mischief other _ hRecords h).bind (hDone _)
  | history polls =>
      exact (Chain.endsAlike_history supply mischief other polls hRecords h).bind fun read =>
        inStep_of_asks (asks_done _)
  | verify =>
      refine EndsAlike.bind ((Chain.endsAlike_history supply mischief other _ hRecords h).bind
        fun read => inStep_of_asks ?_) (hDone _)
      obtain ⟨roots, error⟩ := read
      cases error with
      | none => exact asks_done _
      | some e => exact asks_fail e

end Operations

end Runs

/-- A session goes on alike from two desks that differ at most at the hint, as long as the store of
the undisturbed one is what clients can bring about. -/
theorem Session.endsAlike {site : Site} {supply : Supply} (mischief : Nat → Mischief)
    (session : Session) (hFits : ∀ op ∈ session, op.Fits) {s : System} {held : List Transaction}
    {d d' : Desk} (hAttends : s.Attends site 0 d.store held) (h : d'.Alike site d) :
    (session.run site (Desk.answer site supply mischief) held d').1 =
        (session.run site (Desk.answer site supply fun _ => .none) held d).1 ∧
      (session.run site (Desk.answer site supply mischief) held d').2.Alike site
        (session.run site (Desk.answer site supply fun _ => .none) held d).2 := by
  induction session generalizing s held d d' with
  | nil => exact ⟨rfl, h⟩
  | cons op rest ih =>
      have hRest : ∀ op ∈ rest, op.Fits := fun op hMem => hFits op (List.mem_cons_of_mem _ hMem)
      rw [run, run]
      cases hFound : op.on (held[·]?) with
      | none =>
          obtain ⟨hAnswers, hDesk⟩ := ih hRest hAttends h
          exact ⟨congrArg (none :: ·) hAnswers, hDesk⟩
      | some found =>
          have hHeld : ∀ t, found.about? = some t → t ∈ held := fun t =>
            Operation.mem_of_about?_on hFound
          have hFoundFits := Operation.fits_on hFound (hFits op (List.mem_cons_self ..))
          obtain ⟨published, hSound⟩ := hAttends.reachable.sound
          have hRecords : Records site d.store published := hAttends.store ▸ hSound.records
          have hAvoids : ∀ t, found.about? = some t → t.AvoidsHint := by
            intro t hAbout
            obtain ⟨handle, hHandle, rfl⟩ := hAttends.handles t (hHeld t hAbout)
            exact (hSound.handles handle hHandle).avoidsHint hSound.records
          obtain ⟨s', -, hNext⟩ :=
            hAttends.call (Desk.answersFrom site supply) found hHeld hFoundFits
          obtain ⟨hOutcome, hDesk⟩ :=
            found.endsAlike supply (fun _ => .none) mischief hRecords hAvoids h.symm
          rw [hOutcome] at hNext
          obtain ⟨hReplies, hEnd⟩ := ih hRest hNext hDesk.symm
          dsimp only
          rw [← hOutcome] at hReplies hEnd ⊢
          exact ⟨congrArg (_ :: ·) hReplies, hEnd⟩

/-- Two sessions that make the same calls, with the same identifiers and times at hand, get the same
answers, and their stores hold the same objects everywhere but at the hint, whatever is done to the
hint in one of them. -/
theorem Session.hint_never_matters (site : Site) (supply : Supply) (mischief : Nat → Mischief)
    (session : Session) (hFits : ∀ op ∈ session, op.Fits) :
    (session.run site (Desk.answer site supply mischief) [] .empty).1 =
        (session.run site (Desk.answer site supply fun _ => .none) [] .empty).1 ∧
      ∀ key, key ≠ site.resolve Hint.path →
        (session.run site (Desk.answer site supply mischief) [] .empty).2.store.get? key =
          (session.run site (Desk.answer site supply fun _ => .none) [] .empty).2.store.get? key := by
  have hStart : System.initial.Attends site 0 Desk.empty.store [] := System.attends_initial site 0
  obtain ⟨hAnswers, hDesk⟩ := session.endsAlike mischief hFits hStart (.refl .empty)
  exact ⟨hAnswers, fun key hKey => hDesk.store key hKey⟩

/-- The hint is no text at all whenever it is read, and cannot be written. -/
def Mischief.spoilt : Mischief :=
  ⟨some (some (.bytes [0xff])), .none, some (.storageWrite (.injected Hint.path) .none)⟩

/-- A session with a spoilt hint, beside the same session with a sound one. -/
theorem Session.spoilt_hint_never_matters :
    (sample.run .top (Desk.answer .top (.counting 5) fun _ => .spoilt) [] .empty).1 =
        (sample.run .top (Desk.answer .top (.counting 5) fun _ => .none) [] .empty).1 ∧
      ∀ key, key ≠ Site.top.resolve Hint.path →
        (sample.run .top (Desk.answer .top (.counting 5) fun _ => .spoilt) [] .empty).2.store.get?
            key =
          (sample.run .top (Desk.answer .top (.counting 5) fun _ => .none) [] .empty).2.store.get?
            key :=
  hint_never_matters .top (.counting 5) (fun _ => .spoilt) sample fits_sample

end SnapshotCatalog
