import SnapshotCatalog.Proofs.Looking
/-!
What every operation may ask of the store, and what it delivers. There are four kinds of writes: a
definition at a path that bears a fresh identifier, the root of version 0 once its definition is
stored, the root after the one at which a transaction began, and the hint. A transaction that an
operation delivers is known for what it is, a published root with mutations on top.
-/
namespace SnapshotCatalog

open Storage (Memory Call)
open Program

/-- A request that changes nothing and draws no identifier of a definition. -/
def Request.Quiet : Request → Prop
  | .call c => c.isWrite = false
  | .freshUuid => False
  | .freshTransactionId => True
  | .clock => True
  | .record _ => True

theorem coversChain_quiet (site : Site) : CoversChain site Request.Quiet :=
  ⟨⟨fun _ => rfl, fun _ => trivial⟩, fun _ => rfl⟩

/-- A transaction that began at a published root, with what led from there to its private root. -/
def Handle.Known (site : Site) (m : Memory) (published : List Publication) (h : Handle) : Prop :=
  (∃ p ∈ published, p.root = h.transaction.beginning) ∧ ∃ d, h.Sound site m d

/-- A known transaction began at the root of some version. -/
theorem Handle.Known.isVersion {site : Site} {m : Memory} {published : List Publication} {h : Handle}
    (hKnown : h.Known site m published) (hRecords : Records site m published) :
    ∃ path v, h.transaction.beginning.IsVersion path v := by
  obtain ⟨⟨p, hp, hBeginning⟩, -⟩ := hKnown
  obtain ⟨first, hFirst⟩ := Records.exists_first hp
  obtain ⟨i, hi⟩ := List.getElem?_of_mem hp
  exact ⟨_, _, hBeginning ▸ hRecords.isVersion hFirst hi⟩

/-- What an operation may ask, given the store and the identifier that it has drawn. -/
inductive Permitted (site : Site) (m : Memory) (op : Operation Handle) (drawn : Option Uuid) :
    Request → Prop
  | quiet {r : Request} (h : r.Quiet) : Permitted site m op drawn r
  | draw : Permitted site m op drawn .freshUuid
  | definition {id : Uuid} {path : String} {data : List UInt8} (hDrawn : drawn = some id)
      (hBears : DefinitionPath.Bears id path) :
      Permitted site m op drawn (.call (.put (site.resolve path) (.bytes data) .createNew))
  | first {p : Publication} (hAuthor : p.author = op) (h : p.Founds site m) :
      Permitted site m op drawn
        (.call (.put (site.resolve (RootPath.ofVersion 0)) p.root.blob .createNew))
  | next {p : Publication} {before : Root} {version : Version} (hAuthor : p.author = op)
      (h : p.Follows site m before version) :
      Permitted site m op drawn
        (.call (.put (site.resolve (RootPath.ofVersion version)) p.root.blob .createNew))
  | hint (blob : Storage.Blob) :
      Permitted site m op drawn (.call (.put (site.resolve Hint.path) blob .overwrite))

/-- The errors with which an operation may end. Only a commit that lost its race invites a retry. -/
def Fails (op : Operation Handle) (e : Error) : Prop :=
  Plain e ∨ ∃ h version draft, op = .commit h ∧
    Lakehouse.draft h.transaction = .ok (version, draft) ∧
    e = .commitFailure version (RootPath.ofVersion version)

/-- The terms on which operations run. -/
def duties (site : Site) (m : Memory) (op : Operation Handle) (drawn : Option Uuid) : Terms :=
  ⟨Honest site m drawn, Permitted site m op drawn, Fails op⟩

/-- A transaction that is delivered is a known one. -/
def Delivers (site : Site) (m : Memory) (published : List Publication) (op : Operation Handle)
    (drawn : Option Uuid) (reply : Reply) : Prop :=
  ∀ t, reply = .transaction t → Handle.Known site m published ⟨t, op.past drawn⟩

variable {α : Type} {site : Site} {m : Memory} {drawn : Option Uuid} {kind : Request → Prop}
  {published : List Publication} {op : Operation Handle} {d : LakehouseDef} {t : Transaction}

/-- A program that only reads stays within the duties of any operation. -/
theorem keeps_of_quiet {p : Program α} {post : α → Prop} (h : p.Keeps (reading site m drawn) post)
    (hAsks : p.Asks Request.Quiet) : p.Keeps (duties site m op drawn) post :=
  (h.of_asks hAsks).mono (fun _ _ => id) (fun _ => Permitted.quiet) (fun _ => .inl) fun _ => id

namespace Site

variable (site : Site)

theorem asks_create {path : String} {blob : Storage.Blob}
    (h : kind (.call (.put (site.resolve path) blob .createNew))) :
    (site.create path blob).Asks kind := by
  cases hKey : site.key path with
  | error e =>
      rw [create, hKey]
      exact asks_fail e
  | ok key =>
      rw [create, hKey, site.eq_resolve_of_key hKey]
      exact (asks_call _).mpr h

theorem asks_overwrite {path : String} {blob : Storage.Blob}
    (h : kind (.call (.put (site.resolve path) blob .overwrite))) :
    (site.overwrite path blob).Asks kind := by
  cases hKey : site.key path with
  | error e =>
      rw [overwrite, hKey]
      exact asks_fail e
  | ok key =>
      rw [overwrite, hKey, site.eq_resolve_of_key hKey, bind_eq, ofExcept_ok, done_bind]
      refine Asks.bind ((asks_call _).mpr h) fun outcome => ?_
      cases outcome with
      | written => exact asks_done _
      | alreadyExists => exact asks_fail _

/-- A creation that reports that it wrote has stored its object. -/
theorem keeps_create {path : String} {blob : Storage.Blob}
    (h : Permitted site m op drawn (.call (.put (site.resolve path) blob .createNew))) :
    (site.create path blob).Keeps (duties site m op drawn) fun outcome =>
      Path.check path = .ok () ∧ (path ≠ Hint.path → outcome = .written →
        m.get? (site.resolve path) = some blob) := by
  cases hKey : site.key path with
  | error e =>
      rw [create, hKey]
      exact Keeps.fail (.inl (site.calm_key path e hKey))
  | ok key =>
      rw [create, hKey, site.eq_resolve_of_key hKey, bind_eq, ofExcept_ok, done_bind]
      apply keeps_call (.put _ _ _) h fun e => .inl
      intro outcome hOutcome
      exact ⟨site.check_of_key hKey, fun hPath hWritten =>
        hOutcome (site.resolve_ne_hint hPath) rfl hWritten⟩

end Site

namespace Hint

/-- What is written to the hint to name a version. -/
def content (v : Version) : Storage.Blob := .bytes (Text.bytes (Numeral.ofNat v.toNat))

theorem asks_write_content {v : Version} (hRecord : ∀ measurement, kind (.record measurement))
    (h : kind (.call (.put (site.resolve path) (content v) .overwrite))) :
    (write site v).Asks kind := by
  refine Asks.bind (Asks.attempt (site.asks_overwrite h)) fun answer => ?_
  cases answer with
  | ok value => exact asks_done _
  | error e => exact Asks.request (hRecord _) fun _ => asks_done _

theorem asks_write {v : Version} (hRecord : ∀ measurement, kind (.record measurement))
    (h : ∀ blob, kind (.call (.put (site.resolve path) blob .overwrite))) :
    (write site v).Asks kind :=
  asks_write_content hRecord (h _)

/-- The write of the hint ends well on any terms that allow it. -/
theorem keeps_write {terms : Terms} (v : Version)
    (hRecord : ∀ measurement, terms.asks (.record measurement))
    (hHint : ∀ blob, terms.asks (.call (.put (site.resolve path) blob .overwrite))) :
    (write site v).Keeps terms fun _ => True := by
  have hWrite (blob : Storage.Blob) : (site.overwrite path blob).attempt.Keeps terms fun _ => True :=
    Keeps.attempt (Asks.keeps (site.asks_overwrite (hHint blob)) fun _ => trivial)
  refine (keeps_bind _ _ _).mpr ((hWrite _).weaken fun answer _ => ?_)
  cases answer with
  | ok value => exact Keeps.done trivial
  | error e => exact Keeps.request (hRecord _) fun _ _ => Keeps.done trivial

end Hint

namespace Definition

variable [Definition α]

theorem asks_store {path : String} {x : α}
    (h : kind (.call (.put (site.resolve path) (.bytes (encode x)) .createNew))) :
    (store site path x).Asks kind := by
  refine Asks.bind (site.asks_create h) fun outcome => ?_
  cases outcome with
  | written => exact asks_done _
  | alreadyExists => exact asks_fail _

/-- A definition that was stored lies at its path, which is a path that is accepted. -/
theorem keeps_store {id : Uuid} {path : String} (x : α) (hDrawn : drawn = some id)
    (hBears : DefinitionPath.Bears id path) :
    (store site path x).Keeps (duties site m op drawn) fun _ =>
      Path.check path = .ok () ∧ m.get? (site.resolve path) = some (.bytes (encode x)) := by
  refine (keeps_bind _ _ _).mpr
    ((site.keeps_create (.definition hDrawn hBears)).weaken fun outcome hOutcome => ?_)
  cases outcome with
  | written => exact Keeps.done ⟨hOutcome.1, hOutcome.2 hBears.ne_hint rfl⟩
  | alreadyExists => exact Keeps.fail (.inl rfl)

end Definition

theorem asks_freshUuid (h : kind .freshUuid) : freshUuid.Asks kind :=
  Asks.request h fun _ => asks_done _

theorem keeps_freshUuid :
    freshUuid.Keeps (duties site m op drawn) fun id => drawn = some id :=
  Keeps.request .draw fun _ hDrawn => Keeps.done hDrawn

namespace Lakehouse

theorem asks_define [Definition α] {key : String} {path : Uuid → String} {x : α}
    (hDraw : kind .freshUuid) (h : ∀ id, kind (.call (.put (site.resolve (path id))
      (.bytes (Definition.encode x)) .createNew))) : (define site t key path x).Asks kind :=
  Asks.bind (asks_freshUuid hDraw) fun id =>
    Asks.bind (Definition.asks_store (h id)) fun _ => asks_done _

theorem keeps_define [Definition α] {key : String} {path : Uuid → String} (x : α)
    (hBears : ∀ id, DefinitionPath.Bears id (path id)) :
    (define site t key path x).Keeps (duties site m op drawn) fun t' =>
      ∃ id, drawn = some id ∧ Path.check (path id) = .ok () ∧
        m.get? (site.resolve (path id)) = some (.bytes (Definition.encode x)) ∧
        t' = t.withRunning (t.running.withRow key (path id)) := by
  refine (keeps_bind _ _ _).mpr (keeps_freshUuid.weaken fun id hDrawn => ?_)
  refine (keeps_bind _ _ _).mpr ((Definition.keeps_store x hDrawn (hBears id)).weaken fun _ h => ?_)
  exact Keeps.done ⟨id, hDrawn, h.1, h.2, rfl⟩

end Lakehouse

namespace Change

open Lakehouse

/-- What a change that is carried out makes of the transaction. -/
theorem keeps_perform {c : Change}
    (hFits : ∀ data path, c.definition? = some (data, path) → data.length < UInt64.size)
    (key : String) :
    (c.perform site t key).Keeps (duties site m op drawn) fun t' =>
      (⟨c, drawn⟩ : Mutation).Stored site m ∧
        t' = t.withRunning ((⟨c, drawn⟩ : Mutation).touch t.running key) := by
  rcases c.perform_cases with ⟨hNone, hPerform⟩ | ⟨β, _, x, path, hDefinition, hPerform⟩
  · have hPlace : (⟨c, drawn⟩ : Mutation).place? = none := by
      rw [Mutation.place?, hNone]
      rfl
    rw [hPerform]
    refine Keeps.done ⟨fun data path hSome => ?_, ?_⟩
    · rw [hNone] at hSome
      cases hSome
    · rw [Mutation.touch, hPlace, remove]
  · rw [hPerform]
    apply (keeps_define x (bears_of_definition hDefinition)).weaken
    rintro _ ⟨id, hDrawn, hCheck, hGet, rfl⟩
    have hPlace : (⟨c, drawn⟩ : Mutation).place? = some (path id) := by
      rw [Mutation.place?, hDefinition, hDrawn]
      rfl
    refine ⟨fun data path' hSame => ?_, ?_⟩
    · cases hDefinition.symm.trans hSame
      exact ⟨hFits _ _ hDefinition, id, hDrawn, hCheck, hGet⟩
    · rw [Mutation.touch, hPlace]

/-- A change to a transaction whose lakehouse is known delivers that transaction with the row of its
key touched, and the definition that it brings is stored. -/
theorem keeps_program {c : Change}
    (hGoverns : Governs site m t.running.lakehouseDefPath d)
    (hFits : ∀ data path, c.definition? = some (data, path) → data.length < UInt64.size) :
    (c.program site t).Keeps (duties site m op drawn) fun t' =>
      (⟨c, drawn⟩ : Mutation).Stored site m ∧ ∃ key, c.target d.keyLimits t.running = .ok key ∧
        t' = t.withRunning ((⟨c, drawn⟩ : Mutation).touch t.running key) := by
  have hAsks : (look site t c.target).Asks Request.Quiet := by
    apply asks_look
    exact rfl
  have hLook : (look site t c.target).Keeps (duties site m op drawn) _ :=
    keeps_of_quiet (keeps_look hGoverns fun limits => c.calm_target limits _) hAsks
  rw [c.program_eq, keeps_bind]
  refine hLook.weaken fun key hKey => (keeps_perform hFits key).weaken ?_
  rintro _ ⟨hStored, rfl⟩
  exact ⟨hStored, key, hKey, rfl⟩

end Change

/-- A known transaction that is changed is known, with one mutation more. -/
theorem Handle.Sound.touch {h : Handle} (hSound : h.Sound site m d) {mutation : Mutation}
    (hStored : mutation.Stored site m) {key : String}
    (hKey : mutation.change.target d.keyLimits h.transaction.running = .ok key) :
    Handle.Sound site m ⟨h.transaction.withRunning (mutation.touch h.transaction.running key),
      h.past ++ [mutation]⟩ d := by
  refine ⟨hSound.governs, ?_, ?_⟩
  · show h.transaction.beginning.replay d.keyLimits (h.past ++ [mutation]) = _
    rw [Root.replay_append, hSound.replayed]
    show (mutation.applyTo d.keyLimits h.transaction.running).bind _ = _
    rw [Mutation.applyTo, hKey]
    rfl
  · intro other hMem
    rcases List.mem_append.mp hMem with hMem | hMem
    · exact hSound.stored other hMem
    · rw [List.mem_singleton.mp hMem]
      exact hStored

namespace Lakehouse

theorem calm_checkSize (file : Node.File) (d : LakehouseDef) : Calm (checkSize file d) := by
  rw [checkSize]
  split
  · exact calm_error rfl
  · exact calm_ok ()

theorem asks_publish {version : Version} {r : Root} (hClock : kind .clock)
    (hRecord : ∀ measurement, kind (.record measurement))
    (hRoot : ∀ time, kind (.call (.put (site.resolve (RootPath.ofVersion version))
      (.node (Node.encode r time)) .createNew)))
    (hHint : ∀ blob, kind (.call (.put (site.resolve Hint.path) blob .overwrite))) :
    (publish site version d r).Asks kind := by
  refine Asks.bind (Asks.request hClock fun _ => asks_done _) fun time => ?_
  refine Asks.bind (asks_ofExcept _) fun _ => Asks.bind (site.asks_create (hRoot time)) fun outcome => ?_
  cases outcome with
  | alreadyExists => exact asks_done _
  | written => exact Asks.bind (Hint.asks_write hRecord hHint) fun _ => asks_done _

theorem keeps_publish {version : Version} {r : Root}
    (h : ∀ time, checkSize (Node.encode r time) d = .ok () →
      Permitted site m op drawn (.call (.put (site.resolve (RootPath.ofVersion version))
        (.node (Node.encode r time)) .createNew))) :
    (publish site version d r).Keeps (duties site m op drawn) fun _ => True := by
  have hClock : clock.Keeps (duties site m op drawn) fun _ => True :=
    Keeps.request (.quiet trivial) fun _ _ => Keeps.done trivial
  refine (keeps_bind _ _ _).mpr (hClock.weaken fun time _ => ?_)
  refine (keeps_bind _ _ _).mpr ((keeps_ofExcept _).mpr
    ⟨fun _ hSize => ?_, fun e he => .inl (calm_checkSize _ _ e he)⟩)
  refine (keeps_bind _ _ _).mpr ((site.keeps_create (h time hSize)).weaken fun outcome _ => ?_)
  cases outcome with
  | alreadyExists => exact Keeps.done trivial
  | written =>
      have hHint : (Hint.write site version).Keeps (duties site m op drawn) fun _ => True :=
        Hint.keeps_write version (fun _ => .quiet trivial) .hint
      exact (keeps_bind _ _ _).mpr (hHint.weaken fun _ _ => Keeps.done trivial)

/-- A creation of the lakehouse asks for version 0 only after its definition was stored. -/
theorem keeps_create (hFits : d.encode.length < UInt64.size) :
    (create site d).Keeps (duties site m (.create d) drawn) fun _ => True := by
  have hCalm : Calm d.validate := by
    rw [LakehouseDef.validate]
    split
    · exact calm_error rfl
    · exact calm_ok ()
  refine (keeps_bind _ _ _).mpr ((keeps_ofExcept _).mpr
    ⟨fun _ hValid => ?_, fun e he => .inl (hCalm e he)⟩)
  have hZero : d.zeroLimit? = none := by
    cases h : d.zeroLimit? with
    | none => rfl
    | some limit =>
        rw [LakehouseDef.validate, h] at hValid
        cases hValid
  have hProbe : (Chain.hasRoot site 0).Keeps (duties site m (.create d) drawn) fun _ => True :=
    keeps_of_quiet (Chain.keeps_hasRoot (lenient_reading site m drawn) 0)
      (Chain.asks_hasRoot (coversChain_quiet site).toCoversProbes 0)
  refine (keeps_bind _ _ _).mpr (hProbe.weaken fun found _ => ?_)
  split
  · exact Keeps.fail (.inl rfl)
  · refine (keeps_bind _ _ _).mpr (keeps_freshUuid.weaken fun id hDrawn => ?_)
    refine (keeps_bind _ _ _).mpr ((Definition.keeps_store d hDrawn
      (DefinitionPath.bears_ofLakehouse id)).weaken fun _ hStored => ?_)
    have hGoverns : Governs site m (DefinitionPath.ofLakehouse id) d :=
      ⟨⟨id, rfl⟩, hStored.2, hFits, hZero⟩
    have hFirst (time : Millis)
        (hSize : checkSize (Node.encode (Root.new (DefinitionPath.ofLakehouse id)) time) d = .ok ()) :
        Permitted site m (.create d) drawn (.call (.put (site.resolve (RootPath.ofVersion 0))
          (.node (Node.encode (Root.new (DefinitionPath.ofLakehouse id)) time)) .createNew)) :=
      .first (p := ⟨.create d, (Root.new (DefinitionPath.ofLakehouse id)).persistedAt
        (.ofVersion 0) time⟩) rfl ⟨d, _, time, rfl, hGoverns, hSize, rfl⟩
    refine (keeps_bind _ _ _).mpr ((keeps_publish hFirst).weaken
      fun published _ => ?_)
    cases published with
    | some root => exact Keeps.done trivial
    | none => exact Keeps.fail (.inl rfl)

theorem calm_draft (t : Transaction) : Calm (draft t) := by
  rw [draft]
  split
  · exact calm_error rfl
  · split
    · exact calm_error rfl
    · split
      · exact calm_error rfl
      · exact calm_ok _

/-- A commit asks for the version after the root at which its transaction began, and for no other. -/
theorem keeps_commit {h : Handle} (hSound : h.Sound site m d) :
    (commit site h.transaction).Keeps (duties site m (.commit h) drawn) fun _ => True := by
  refine (keeps_bind _ _ _).mpr ((keeps_ofExcept _).mpr
    ⟨fun drafted hDraft => ?_, fun e he => .inl (calm_draft _ e he)⟩)
  obtain ⟨version, root⟩ := drafted
  obtain ⟨location, -, -, -, hRoot⟩ := draft_eq_ok hDraft
  have hGoverns : Governs site m root.lakehouseDefPath d := by
    rw [hRoot]
    exact hSound.governs_running
  have hAsks : (LakehouseDef.load site root.lakehouseDefPath).Asks Request.Quiet := by
    apply LakehouseDef.asks_load
    exact rfl
  have hLoad : (LakehouseDef.load site root.lakehouseDefPath).Keeps
      (duties site m (.commit h) drawn) (· = d) :=
    keeps_of_quiet (LakehouseDef.keeps_load hGoverns) hAsks
  have hNext (time : Millis) (hSize : checkSize (Node.encode root time) d = .ok ()) :
      Permitted site m (.commit h) drawn
        (.call (.put (site.resolve (RootPath.ofVersion version)) (.node (Node.encode root time))
          .createNew)) :=
    .next (p := ⟨.commit h, root.persistedAt (.ofVersion version) time⟩) rfl
      ⟨h, d, root, time, rfl, rfl, hSound, hDraft, hSize, rfl⟩
  refine (keeps_bind _ _ _).mpr (hLoad.weaken fun found hFound => ?_)
  subst hFound
  refine (keeps_bind _ _ _).mpr ((keeps_publish hNext).weaken fun published _ => ?_)
  cases published with
  | none =>
      refine Keeps.request (.quiet trivial) fun _ _ => Keeps.fail (.inr ?_)
      exact ⟨h, version, root, rfl, hDraft, rfl⟩
  | some root => exact Keeps.request (.quiet trivial) fun _ _ => Keeps.done trivial

/-- A transaction begins without mutations at a published root. -/
theorem keeps_beginAt (hRecords : Records site m published) {root : Root}
    (hRoot : ∃ p ∈ published, p.root = root) (isolation : IsolationLevel) :
    (beginAt root isolation).Keeps (duties site m op drawn) fun t =>
      Handle.Known site m published ⟨t, []⟩ := by
  have hKnown (id : TransactionId) (time : Millis) :
      Handle.Known site m published ⟨.start id time isolation root, []⟩ := by
    obtain ⟨p, hp, rfl⟩ := hRoot
    obtain ⟨first, hFirst⟩ := Records.exists_first hp
    obtain ⟨d, -, hGoverns⟩ := hRecords.governs hFirst
    obtain ⟨i, hi⟩ := List.getElem?_of_mem hp
    refine ⟨⟨p, hp, rfl⟩, d, ?_, rfl, nofun⟩
    show Governs site m p.root.lakehouseDefPath d
    rw [(hRecords.isVersion hFirst hi).lakehouseDefPath]
    exact hGoverns
  exact Keeps.request (.quiet trivial) fun time _ =>
    Keeps.request (.quiet trivial) fun id _ => Keeps.done (hKnown id time)

end Lakehouse

end SnapshotCatalog
