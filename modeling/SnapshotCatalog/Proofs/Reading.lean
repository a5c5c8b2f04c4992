import SnapshotCatalog.Proofs.Publications
/-!
What the reading parts of operations ask and what they find. Other clients may write between any two
requests, so all that an answer tells is that an object is stored from then on. That is enough: every
root that is read is a published one, and limits are those of the lakehouse definition.
-/
namespace SnapshotCatalog

open Storage (Memory Call)

/-- What the value of a call tells about a store in which nothing but the hint is ever lost or
changed. -/
def Learned (site : Site) (m : Memory) : (c : Call) → c.Value → Prop
  | .get key, blob => key ≠ site.resolve Hint.path → m.get? key = some blob
  | .put key blob mode, outcome =>
    key ≠ site.resolve Hint.path → mode = .createNew → outcome = .written → m.get? key = some blob
  | .delete _, _ => True
  | .list _, _ => True
  | .head _, _ => True

/-- The answers that an operation may have got up to a state of the store, when it has drawn this
identifier or none. -/
def Honest (site : Site) (m : Memory) (drawn : Option Uuid) : (r : Request) → r.Answer → Prop
  | .call c, answer => Calm answer ∧ ∀ value, answer = .ok value → Learned site m c value
  | .freshUuid, id => drawn = some id
  | .freshTransactionId, _ => True
  | .clock, _ => True
  | .record _, _ => True

/-- The errors with which everything but a lost race ends. -/
def Plain (e : Error) : Prop := e.isRetryable = false

/-- The terms on which a program reads: honest answers and plain errors. -/
def reading (site : Site) (m : Memory) (drawn : Option Uuid) : Terms :=
  ⟨Honest site m drawn, fun _ => True, Plain⟩

/-- Terms on which anything may be asked, and on which a program may end with the error of a call or
with the error that there is no lakehouse. -/
structure Terms.Lenient (terms : Terms) : Prop where
  asks : ∀ r, terms.asks r
  passes : ∀ c e, terms.answers (.call c) (.error e) → terms.fails e
  uninitialized : terms.fails (.objectNotFound .uninitialized)

theorem lenient_reading (site : Site) (m : Memory) (drawn : Option Uuid) :
    (reading site m drawn).Lenient :=
  ⟨fun _ => trivial, fun _ e h => h.1 e rfl, rfl⟩

/-- A kind of requests that covers what is asked to follow the links of the chain. -/
structure CoversLinks (site : Site) (kind : Request → Prop) : Prop where
  get : ∀ v, kind (.call (.get (site.resolve (RootPath.ofVersion v))))
  record : ∀ measurement, kind (.record measurement)

/-- A kind of requests that covers what is asked to look for the newest version, the hint apart. -/
structure CoversProbes (site : Site) (kind : Request → Prop) : Prop where
  record : ∀ measurement, kind (.record measurement)
  head : ∀ v, kind (.call (.head (site.resolve (RootPath.ofVersion v))))

/-- A kind of requests that covers what readers of the chain ask about roots, probes included. -/
structure CoversChain (site : Site) (kind : Request → Prop) : Prop extends CoversLinks site kind,
  CoversProbes site kind

namespace Program

variable {α : Type} {site : Site} {m : Memory} {drawn : Option Uuid} {kind : Request → Prop}
  {post : α → Prop}

theorem keeps_ofExcept_calm {e : Except Error α} (hCalm : Calm e)
    (h : ∀ value, e = .ok value → post value) :
    (ofExcept e).Keeps (reading site m drawn) post :=
  (keeps_ofExcept e).mpr ⟨h, hCalm⟩

theorem keeps_call {asks : Request → Prop} {fails : Error → Prop} (c : Call)
    {post : c.Value → Prop} (hAsks : asks (.call c)) (hFails : ∀ e, Plain e → fails e)
    (h : ∀ value, Learned site m c value → post value) :
    (call c).Keeps ⟨Honest site m drawn, asks, fails⟩ post := by
  refine Keeps.request hAsks fun answer hAnswer => (keeps_ofExcept answer).mpr ⟨?_, ?_⟩
  · exact fun value hValue => h value (hAnswer.2 value hValue)
  · exact fun e he => hFails e (hAnswer.1 e he)

theorem Keeps.of_call {terms : Terms} (h : terms.Lenient) (c : Call) :
    (call c).Keeps terms fun _ => True := by
  refine Keeps.request (h.asks _) fun answer hAnswer => (keeps_ofExcept answer).mpr ⟨?_, ?_⟩
  · exact fun _ _ => trivial
  · rintro e rfl
    exact h.passes c e hAnswer

theorem keeps_readCall (c : Call) {post : c.Value → Prop}
    (h : ∀ value, Learned site m c value → post value) :
    (call c).Keeps (reading site m drawn) post :=
  keeps_call c trivial (fun _ => id) h

end Program

namespace Site

variable (site : Site) {m : Memory} {drawn : Option Uuid} {kind : Request → Prop}

theorem calm_key (path : String) : Calm (site.key path) := by
  refine Calm.bind ?_ fun _ => calm_ok _
  rw [Path.check]
  split
  · exact calm_error rfl
  · exact calm_ok ()

theorem asks_read {path : String} (h : kind (.call (.get (site.resolve path)))) :
    (site.read path).Asks kind := by
  cases hKey : site.key path with
  | error e =>
      rw [read, hKey]
      exact Program.asks_fail e
  | ok key =>
      rw [read, hKey, site.eq_resolve_of_key hKey]
      exact (Program.asks_call _).mpr h

theorem keeps_read (path : String) :
    (site.read path).Keeps (reading site m drawn) fun blob =>
      path ≠ Hint.path → m.get? (site.resolve path) = some blob := by
  cases hKey : site.key path with
  | error e =>
      rw [read, hKey]
      exact Program.Keeps.fail (site.calm_key path e hKey)
  | ok key =>
      rw [read, hKey, site.eq_resolve_of_key hKey, Program.bind_eq, Program.ofExcept_ok,
        Program.done_bind]
      apply Program.keeps_readCall (.get _)
      intro blob hBlob hPath
      exact hBlob (site.resolve_ne_hint hPath)

end Site

namespace Chain

open Program

variable {site : Site} {m : Memory} {drawn : Option Uuid} {kind : Request → Prop}
  {published : List Publication} {terms : Terms}

theorem asks_record (hRecord : ∀ measurement, kind (.record measurement))
    (measurement : Measurement) : (record measurement).Asks kind :=
  Asks.request (hRecord measurement) fun _ => asks_done _

theorem keeps_record (h : terms.Lenient) (measurement : Measurement) :
    (record measurement).Keeps terms fun _ => True :=
  Keeps.request (h.asks _) fun _ _ => Keeps.done trivial

theorem asks_hasRoot (hKind : CoversProbes site kind) (v : Version) : (hasRoot site v).Asks kind := by
  show ((site.head (RootPath.ofVersion v)).bind _).Asks kind
  rw [Site.head, site.key_root]
  exact Asks.bind ((asks_call _).mpr (hKind.head v)) fun _ => asks_done _

theorem keeps_hasRoot (h : terms.Lenient) (v : Version) :
    (hasRoot site v).Keeps terms fun _ => True := by
  show ((site.head (RootPath.ofVersion v)).bind _).Keeps _ _
  rw [Site.head, site.key_root, keeps_bind, bind_eq, ofExcept_ok, done_bind]
  exact (Keeps.of_call h (.head _)).weaken fun _ _ => Keeps.done trivial

theorem asks_climb (hKind : CoversProbes site kind) (left : Nat) (v : Version) (probes : Nat) :
    (climb site v probes left).Asks kind := by
  induction left generalizing v probes with
  | zero => exact asks_done _
  | succ left ih =>
      refine Asks.bind (asks_hasRoot hKind _) fun found => ?_
      cases found with
      | true => exact ih _ _
      | false => exact asks_done _

theorem keeps_climb (h : terms.Lenient) (left : Nat) (v : Version) (probes : Nat) :
    (climb site v probes left).Keeps terms fun _ => True := by
  induction left generalizing v probes with
  | zero => exact Keeps.done trivial
  | succ left ih =>
      refine (keeps_bind _ _ _).mpr ((keeps_hasRoot h _).weaken fun found _ => ?_)
      cases found with
      | true => exact ih _ _
      | false => exact Keeps.done trivial

theorem asks_climbFrom (hKind : CoversProbes site kind) (v : Version) (probes : Nat) :
    (climbFrom site v probes).Asks kind := by
  rw [climbFrom, bind_eq]
  exact Asks.bind (asks_climb hKind _ v probes) fun _ =>
    Asks.bind (asks_record hKind.record _) fun _ => asks_done _

theorem keeps_climbFrom (h : terms.Lenient) (v : Version) (probes : Nat) :
    (climbFrom site v probes).Keeps terms fun _ => True := by
  rw [climbFrom, bind_eq, keeps_bind]
  refine (keeps_climb h _ v probes).weaken fun found _ => ?_
  exact (keeps_bind _ _ _).mpr ((keeps_record h _).weaken fun _ _ => Keeps.done trivial)

theorem asks_notInitialized (hRecord : ∀ measurement, kind (.record measurement)) (probes : Nat) :
    (notInitialized probes : Program Version).Asks kind :=
  Asks.bind (asks_record hRecord _) fun _ => asks_fail _

theorem keeps_notInitialized {α : Type} {post : α → Prop} (h : terms.Lenient) (probes : Nat) :
    (notInitialized probes : Program α).Keeps terms post := by
  rw [notInitialized, bind_eq, keeps_bind]
  exact (keeps_record h _).weaken fun _ _ => Keeps.fail h.uninitialized

theorem asks_latestFrom (hKind : CoversProbes site kind) (hint : Version) :
    (latestFrom site hint).Asks kind := by
  rw [latestFrom, bind_eq]
  refine Asks.bind (asks_hasRoot hKind hint) fun found => ?_
  split
  · exact asks_climbFrom hKind hint 1
  · split
    · exact asks_notInitialized hKind.record 1
    · refine Asks.bind (asks_record hKind.record _) fun _ => ?_
      refine Asks.bind (asks_hasRoot hKind _) fun found => ?_
      split
      · exact asks_climbFrom hKind _ _
      · exact asks_notInitialized hKind.record 2

theorem keeps_latestFrom (h : terms.Lenient) (hint : Version) :
    (latestFrom site hint).Keeps terms fun _ => True := by
  rw [latestFrom, bind_eq, keeps_bind]
  refine (keeps_hasRoot h hint).weaken fun found _ => ?_
  split
  · exact keeps_climbFrom h hint 1
  · split
    · exact keeps_notInitialized h 1
    · rw [bind_eq, keeps_bind]
      refine (keeps_record h _).weaken fun _ _ => ?_
      rw [bind_eq, keeps_bind]
      refine Keeps.weaken (keeps_hasRoot h _) fun found _ => ?_
      split
      · exact keeps_climbFrom h _ _
      · exact keeps_notInitialized h 2

theorem asks_fallback (hRecord : ∀ measurement, kind (.record measurement))
    (reason : FallbackReason) : (Hint.fallback reason).Asks kind :=
  Asks.bind (asks_record hRecord _) fun _ => asks_done _

theorem keeps_fallback (h : terms.Lenient) (reason : FallbackReason) :
    (Hint.fallback reason).Keeps terms fun _ => True :=
  (keeps_bind _ _ _).mpr ((keeps_record h _).weaken fun _ _ => Keeps.done trivial)

theorem asks_readHint (hRecord : ∀ measurement, kind (.record measurement))
    (hHint : kind (.call (.get (site.resolve Hint.path)))) : (Hint.read site).Asks kind := by
  refine Asks.bind (Asks.attempt (site.asks_read hHint)) fun answer => ?_
  cases answer with
  | error e => exact asks_fallback hRecord _
  | ok blob =>
      dsimp only
      split
      · exact asks_done _
      · exact asks_fallback hRecord _

theorem keeps_readHint (h : terms.Lenient) : (Hint.read site).Keeps terms fun _ => True := by
  have hAny : Terms.Lenient ⟨terms.answers, terms.asks, fun _ => True⟩ :=
    ⟨h.asks, fun _ _ _ => trivial, trivial⟩
  have hRead : (site.read Hint.path).attempt.Keeps terms fun _ => True := by
    rw [Site.read, site.key_hint]
    exact Keeps.attempt (Keeps.of_call hAny (.get _))
  refine (keeps_bind _ _ _).mpr (hRead.weaken fun answer _ => ?_)
  cases answer with
  | error e => exact keeps_fallback h _
  | ok blob =>
      dsimp only
      split
      · exact Keeps.done trivial
      · exact keeps_fallback h _

/-- The newest version is found without reading a root. -/
theorem asks_latestVersion_of_probes (hKind : CoversProbes site kind)
    (hHint : kind (.call (.get (site.resolve Hint.path)))) : (latestVersion site).Asks kind :=
  Asks.bind (asks_readHint hKind.record hHint) fun hint => asks_latestFrom hKind hint

theorem asks_latestVersion (hKind : CoversChain site kind)
    (hHint : kind (.call (.get (site.resolve Hint.path)))) : (latestVersion site).Asks kind :=
  asks_latestVersion_of_probes hKind.toCoversProbes hHint

theorem keeps_latestVersion (h : terms.Lenient) :
    (latestVersion site).Keeps terms fun _ => True :=
  (keeps_bind _ _ _).mpr ((keeps_readHint h).weaken fun hint _ => keeps_latestFrom h hint)

theorem calm_versionAt (path : String) : Calm (versionAt path) := by
  rw [versionAt]
  split
  · exact calm_ok _
  · exact calm_error rfl

theorem calm_parseRoot (location : Location) (blob : Storage.Blob) :
    Calm (parseRoot location blob) := by
  refine Calm.bind ?_ fun _ => calm_ok _
  cases blob with
  | bytes data => exact calm_error rfl
  | node file =>
      simp only [parseNode]
      split
      · exact calm_ok _
      · exact calm_error rfl

theorem versionAt_eq_ok {path : String} {v : Version} (h : versionAt path = .ok v) :
    path = RootPath.ofVersion v := by
  rw [versionAt] at h
  split at h
  · next hVersion =>
    cases h
    exact RootPath.eq_ofVersion_of_version? hVersion
  · cases h

theorem asks_readRootAt (hKind : CoversLinks site kind) (path : String) :
    (readRootAt site path).Asks kind := by
  cases hVersion : versionAt path with
  | error e =>
      rw [readRootAt, hVersion]
      exact asks_fail e
  | ok v =>
      rw [readRootAt, hVersion, versionAt_eq_ok hVersion, ofExcept_ok, bind_eq, done_bind]
      exact Asks.bind (site.asks_read (hKind.get v)) fun _ => asks_ofExcept _

/-- What is read at a root path is a published root. -/
theorem keeps_readRootAt (h : Records site m published) (path : String) :
    (readRootAt site path).Keeps (reading site m drawn) fun r => ∃ p ∈ published, p.root = r := by
  refine (keeps_bind _ _ _).mpr (keeps_ofExcept_calm (calm_versionAt path) fun v hVersion => ?_)
  cases versionAt_eq_ok hVersion
  refine (keeps_bind _ _ _).mpr ((site.keeps_read _).weaken fun blob hBlob => ?_)
  obtain ⟨p, first, hp, -, rfl, hRoot⟩ := h.get?_root (hBlob (RootPath.ofVersion_ne_hint v))
  refine keeps_ofExcept_calm (calm_parseRoot _ _) fun r hr => ⟨p, List.mem_of_getElem? hp, ?_⟩
  exact Except.ok.inj (hRoot.parseRoot_blob.symm.trans hr)

theorem asks_latestRoot (hKind : CoversChain site kind)
    (hHint : kind (.call (.get (site.resolve Hint.path)))) : (latestRoot site).Asks kind :=
  Asks.bind (asks_latestVersion hKind hHint) fun _ => asks_readRootAt hKind.toCoversLinks _

theorem keeps_latestRoot (h : Records site m published) :
    (latestRoot site).Keeps (reading site m drawn) fun r => ∃ p ∈ published, p.root = r :=
  (keeps_bind _ _ _).mpr ((keeps_latestVersion (lenient_reading site m drawn)).weaken fun _ _ =>
    keeps_readRootAt h _)

theorem calm_locationOf (r : Root) : Calm (locationOf r) := by
  rw [locationOf]
  split
  · exact calm_ok _
  · exact calm_error rfl

theorem asks_readPrevious (hKind : CoversLinks site kind) (r : Root) :
    (readPrevious site r).Asks kind := by
  refine Asks.bind (asks_ofExcept _) fun location => ?_
  split
  · exact asks_done _
  · exact asks_done _
  · refine Asks.bind (asks_readRootAt hKind _).attempt fun answer => ?_
    cases answer with
    | ok previous => exact asks_done _
    | error e =>
        dsimp only
        split
        · exact asks_done _
        · exact asks_fail e

theorem keeps_readPrevious (h : Records site m published) (r : Root) :
    (readPrevious site r).Keeps (reading site m drawn) fun previous =>
      ∀ r', previous = .root r' → ∃ p ∈ published, p.root = r' := by
  refine (keeps_bind _ _ _).mpr (keeps_ofExcept_calm (calm_locationOf r) fun location _ => ?_)
  split
  · exact Keeps.done nofun
  · exact Keeps.done nofun
  · next path _ =>
    have hRead : (readRootAt site path).attempt.Keeps (reading site m drawn) fun answer =>
        Calm answer ∧ ∀ r', answer = .ok r' → ∃ p ∈ published, p.root = r' := by
      refine Keeps.attempt ((keeps_readRootAt h path).mono (fun _ _ => id) (fun _ => id) ?_ ?_)
      · exact fun e he => ⟨calm_error he, nofun⟩
      · rintro r' hr'
        refine ⟨calm_ok r', ?_⟩
        rintro _ ⟨⟩
        exact hr'
    refine (keeps_bind _ _ _).mpr (hRead.weaken fun answer hAnswer => ?_)
    cases answer with
    | ok previous =>
        apply Keeps.done
        rintro _ ⟨⟩
        exact hAnswer.2 previous rfl
    | error e =>
        dsimp only
        split
        · exact Keeps.done nofun
        · exact Keeps.fail (hAnswer.1 e rfl)

/-- A search whose verdict on a root is the root itself or an error, and whose errors are plain. -/
structure Search.IsPlain (s : Search) : Prop where
  judge : ∀ location r result, s.judge location r = some result →
    Calm result ∧ ∀ found, result = .ok found → found = r
  exhausted : Plain s.exhausted
  broken : ∀ path link, Plain (s.broken path link)

theorem Search.isPlain_forVersion (v : Version) : (forVersion v).IsPlain := by
  refine ⟨fun location r result h => ?_, rfl, fun _ _ => rfl⟩
  simp only [forVersion] at h
  split at h
  · cases h
    refine ⟨calm_ok r, ?_⟩
    rintro _ ⟨⟩
    rfl
  · split at h
    · cases h
      exact ⟨calm_error rfl, nofun⟩
    · cases h

theorem Search.isPlain_forTime (time : Millis) : (forTime time).IsPlain := by
  refine ⟨fun location r result h => ?_, rfl, fun _ _ => rfl⟩
  simp only [forTime] at h
  split at h
  · cases h
    refine ⟨calm_ok r, ?_⟩
    rintro _ ⟨⟩
    rfl
  · cases h

theorem Search.asks_down (hKind : CoversLinks site kind) (s : Search) (below : Nat) (r : Root) :
    (s.down site below r).Asks kind := by
  induction below generalizing r with
  | zero =>
      rw [down]
      refine Asks.bind (asks_ofExcept _) fun location => ?_
      split
      · exact asks_ofExcept _
      · refine Asks.bind (asks_readPrevious hKind r) fun previous => ?_
        cases previous with
        | start => exact asks_fail _
        | broken path link => exact asks_fail _
        | root previous => exact asks_fail _
  | succ below ih =>
      rw [down]
      refine Asks.bind (asks_ofExcept _) fun location => ?_
      split
      · exact asks_ofExcept _
      · refine Asks.bind (asks_readPrevious hKind r) fun previous => ?_
        cases previous with
        | start => exact asks_fail _
        | broken path link => exact asks_fail _
        | root previous => exact ih previous

theorem Search.keeps_down (h : Records site m published) {s : Search} (hs : s.IsPlain)
    (below : Nat) {r : Root} (hr : ∃ p ∈ published, p.root = r) :
    (s.down site below r).Keeps (reading site m drawn) fun found =>
      ∃ p ∈ published, p.root = found := by
  induction below generalizing r with
  | zero =>
      rw [down]
      refine (keeps_bind _ _ _).mpr (keeps_ofExcept_calm (calm_locationOf r) fun location _ => ?_)
      split
      · next result hJudge =>
        obtain ⟨hCalm, hFound⟩ := hs.judge location r result hJudge
        exact keeps_ofExcept_calm hCalm fun found hOk => hFound found hOk ▸ hr
      · refine (keeps_bind _ _ _).mpr ((keeps_readPrevious h r).weaken fun previous _ => ?_)
        cases previous with
        | start => exact Keeps.fail hs.exhausted
        | broken path link => exact Keeps.fail (hs.broken path link)
        | root previous => exact Keeps.fail hs.exhausted
  | succ below ih =>
      rw [down]
      refine (keeps_bind _ _ _).mpr (keeps_ofExcept_calm (calm_locationOf r) fun location _ => ?_)
      split
      · next result hJudge =>
        obtain ⟨hCalm, hFound⟩ := hs.judge location r result hJudge
        exact keeps_ofExcept_calm hCalm fun found hOk => hFound found hOk ▸ hr
      · refine (keeps_bind _ _ _).mpr
          ((keeps_readPrevious h r).weaken fun previous hPrevious => ?_)
        cases previous with
        | start => exact Keeps.fail hs.exhausted
        | broken path link => exact Keeps.fail (hs.broken path link)
        | root previous => exact ih (hPrevious previous rfl)

theorem Search.asks_run (hKind : CoversChain site kind)
    (hHint : kind (.call (.get (site.resolve Hint.path)))) (s : Search) : (s.run site).Asks kind :=
  Asks.bind (asks_latestRoot hKind hHint) fun head =>
    Asks.bind (asks_ofExcept _) fun _ => s.asks_down hKind.toCoversLinks _ head

/-- A search finds nothing but published roots. -/
theorem Search.keeps_run (h : Records site m published) {s : Search} (hs : s.IsPlain) :
    (s.run site).Keeps (reading site m drawn) fun r => ∃ p ∈ published, p.root = r := by
  refine (keeps_bind _ _ _).mpr ((keeps_latestRoot h).weaken fun head hHead => ?_)
  refine (keeps_bind _ _ _).mpr (keeps_ofExcept_calm (calm_locationOf head) fun location _ => ?_)
  exact keeps_down h hs _ hHead

/-- Only the beginning of a history looks for the newest root. -/
theorem asks_poll (hKind : CoversLinks site kind) {cursor : Cursor}
    (hHead : cursor = .head → (latestRoot site).Asks kind) : (poll site cursor).Asks kind := by
  cases cursor with
  | head => exact Asks.bind (hHead rfl) fun _ => asks_done _
  | after r =>
      refine Asks.bind (asks_readPrevious hKind r) fun previous => ?_
      cases previous with
      | root previous => exact asks_done _
      | start => exact asks_done _
      | broken path link => exact asks_fail _

theorem asks_readOn (hKind : CoversLinks site kind) (polls : Nat) {cursor : Cursor}
    (hHead : cursor = .head → (latestRoot site).Asks kind) :
    (readOn site polls cursor).Asks kind := by
  induction polls generalizing cursor with
  | zero => exact asks_done _
  | succ polls ih =>
      refine Asks.bind (asks_poll hKind hHead).attempt fun answer => ?_
      match answer with
      | .error e => exact asks_done _
      | .ok none => exact asks_done _
      | .ok (some r) => exact Asks.bind (ih fun hHead => nomatch hHead) fun _ => asks_done _

theorem asks_verify (hKind : CoversChain site kind)
    (hHint : kind (.call (.get (site.resolve Hint.path)))) : (verify site).Asks kind := by
  have hHistory : (history site longest).Asks kind :=
    asks_readOn hKind.toCoversLinks _ fun _ => asks_latestRoot hKind hHint
  refine Asks.bind hHistory fun result => ?_
  obtain ⟨roots, error⟩ := result
  cases error with
  | none => exact asks_done _
  | some e => exact asks_fail e

theorem keeps_poll (h : Records site m published) (cursor : Cursor) :
    (poll site cursor).Keeps (reading site m drawn) fun _ => True := by
  cases cursor with
  | head => exact (keeps_bind _ _ _).mpr ((keeps_latestRoot h).weaken fun _ _ => Keeps.done trivial)
  | after r =>
      refine (keeps_bind _ _ _).mpr ((keeps_readPrevious h r).weaken fun previous _ => ?_)
      cases previous with
      | root previous => exact Keeps.done trivial
      | start => exact Keeps.done trivial
      | broken path link => exact Keeps.fail rfl

/-- The error that ends a history is a plain one. -/
theorem keeps_readOn (h : Records site m published) (polls : Nat) (cursor : Cursor) :
    (readOn site polls cursor).Keeps (reading site m drawn) fun result =>
      ∀ e, result.2 = some e → Plain e := by
  induction polls generalizing cursor with
  | zero => exact Keeps.done nofun
  | succ polls ih =>
      have hPoll : (poll site cursor).attempt.Keeps (reading site m drawn) Calm :=
        Keeps.attempt ((keeps_poll h cursor).mono (fun _ _ => id) (fun _ => id)
          (fun _ => calm_error) fun _ _ => calm_ok _)
      refine (keeps_bind _ _ _).mpr (hPoll.weaken fun answer hCalm => ?_)
      match answer with
      | .error e =>
          apply Keeps.done
          rintro _ ⟨⟩
          exact hCalm e rfl
      | .ok none => exact Keeps.done nofun
      | .ok (some r) =>
          exact (keeps_bind _ _ _).mpr ((ih _).weaken fun _ hRest => Keeps.done hRest)

theorem keeps_verify (h : Records site m published) :
    (verify site).Keeps (reading site m drawn) fun _ => True := by
  refine (keeps_bind _ _ _).mpr ((keeps_readOn h _ _).weaken fun result hResult => ?_)
  obtain ⟨roots, error⟩ := result
  cases error with
  | none => exact Keeps.done trivial
  | some e => exact Keeps.fail (hResult e rfl)

end Chain

end SnapshotCatalog
