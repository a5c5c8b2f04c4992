import Mathlib.Data.List.Basic
import SnapshotCatalog.Proofs.Duties
/-!
The invariant of all clients at one store. It says of a state which versions are published, that the
store holds exactly their roots, that every transaction in anyone's hands began at one of them, and
that every operation under way has been told nothing but the truth. A step adds at most one version,
and only a root creation that found nothing adds one.
-/
namespace SnapshotCatalog

open Storage (Memory Call)
open Program

variable {site : Site} {m m' : Memory} {drawn : Option Uuid} {published : List Publication}
  {op : Operation Handle}

/-! ### What stays true when objects are added -/

theorem Learned.grows {c : Call} {value : c.Value} (h : Learned site m c value)
    (hGrows : site.Grows m m') : Learned site m' c value := by
  cases c with
  | get key => exact fun hKey => hGrows key _ hKey (h hKey)
  | put key blob mode =>
      exact fun hKey hMode hWritten => hGrows key _ hKey (h hKey hMode hWritten)
  | delete key => trivial
  | list start => trivial
  | head key => trivial

theorem Honest.grows {r : Request} {a : r.Answer} (h : Honest site m drawn r a)
    (hGrows : site.Grows m m') : Honest site m' drawn r a := by
  cases r with
  | call c => exact ⟨h.1, fun value hValue => (h.2 value hValue).grows hGrows⟩
  | freshUuid => exact h
  | freshTransactionId => trivial
  | clock => trivial
  | record measurement => trivial

/-- As long as no identifier was drawn, the answers fit with any that is drawn later. -/
theorem Honest.of_none {r : Request} {a : r.Answer} (h : Honest site m none r a)
    (drawn : Option Uuid) : Honest site m drawn r a := by
  cases r with
  | call c => exact h
  | freshUuid => cases h
  | freshTransactionId => trivial
  | clock => trivial
  | record measurement => trivial

theorem Handle.Known.grows {h : Handle} {more : List Publication}
    (hKnown : h.Known site m published) (hGrows : site.Grows m m') :
    h.Known site m' (published ++ more) := by
  obtain ⟨⟨p, hp, hBeginning⟩, d, hSound⟩ := hKnown
  exact ⟨⟨p, List.mem_append_left more hp, hBeginning⟩, d, hSound.grows hGrows⟩

/-! ### What one answered request does -/

theorem calm_answer (c : Call) (m : Memory) : Calm (Memory.answer c m).1 := by
  cases c with
  | get key =>
      rw [Memory.answer]
      split
      · exact calm_ok _
      · exact calm_error rfl
  | put key blob mode =>
      rw [Memory.answer]
      split <;> exact calm_ok _
  | delete key => exact calm_ok _
  | list start => exact calm_ok _
  | head key => exact calm_ok _

/-- What a call that was performed tells is true of the store after it. -/
theorem learned_answer {c : Call} {value : c.Value} (h : (Memory.answer c m).1 = .ok value) :
    Learned site (Memory.answer c m).2 c value := by
  cases c with
  | get key =>
      intro _
      cases hGet : m.get? key with
      | none => simp only [Memory.answer, hGet] at h; cases h
      | some blob =>
          simp only [Memory.answer, hGet] at h ⊢
          cases h
          rfl
  | put key blob mode =>
      rintro _ rfl rfl
      by_cases hContains : m.contains key = true
      · simp only [Memory.answer, hContains, and_self, if_true] at h
        cases h
      · rw [Memory.answer, if_neg fun hBoth => hContains hBoth.2]
        exact m.get?_insert_self key blob
  | delete key => trivial
  | list start => trivial
  | head key => trivial

theorem plain_of_isFault {e : Error} (h : e.isFault = true) : Plain e := by
  cases e <;> first | rfl | cases h

/-- Every answer agrees with the store after it. -/
theorem honest_of_serves {r : Request} {a : r.Answer} (h : System.Serves m r a m') :
    Honest site m' (Run.drawnAfter drawn r a) r a := by
  cases h with
  | performed c => exact ⟨calm_answer c m, fun value hValue => learned_answer hValue⟩
  | failed c e hFault => exact ⟨calm_error (plain_of_isFault hFault), nofun⟩
  | uuid id => rfl
  | transactionId id => trivial
  | clock time => trivial
  | record measurement => trivial

theorem answer_createNew (key : String) (blob : Storage.Blob) (m : Memory) :
    Memory.answer (.put key blob .createNew) m =
      if m.contains key = true then (.ok .alreadyExists, m)
      else (.ok .written, m.insert key blob) := by
  by_cases h : m.contains key = true
  · rw [Memory.answer, if_pos ⟨rfl, h⟩, if_pos h]
  · rw [Memory.answer, if_neg fun hBoth => h hBoth.2, if_neg h]

theorem get?_of_not_contains {key : String} (h : ¬ m.contains key = true) : m.get? key = none := by
  rw [TextMap.contains] at h
  exact Option.not_isSome_iff_eq_none.mp h

theorem grows_insert_hint (blob : Storage.Blob) :
    site.Grows m (m.insert (site.resolve Hint.path) blob) := by
  intro other found hOther hGet
  rw [TextMap.get?_insert_of_ne _ hOther]
  exact hGet

theorem Text.after?_append (start rest : String) : Text.after? start (start ++ rest) = some rest := by
  rw [after?, String.toList_append, List.isPrefixOf?_eq_some_iff_append_eq.mpr rfl,
    Option.map_some, String.ofList_toList]

theorem Site.versionAt?_resolve (site : Site) (path : String) :
    site.versionAt? (site.resolve path) = RootPath.version? path := by
  rw [versionAt?, site.resolve_eq, Text.after?_append]
  rfl

/-- The list of published versions as the log shows it. -/
def numbered (published : List Publication) : List (Version × Operation Handle) :=
  published.mapIdx fun i p => (UInt64.ofNat i, p.author)

theorem numbered_append_singleton (published : List Publication) (p : Publication) :
    numbered (published ++ [p]) = numbered published ++ [(UInt64.ofNat published.length, p.author)] :=
  List.mapIdx_concat

theorem getElem?_numbered (published : List Publication) (i : Nat) :
    (numbered published)[i]? = published[i]?.map fun p => (UInt64.ofNat i, p.author) :=
  List.getElem?_mapIdx

theorem map_snd_numbered (published : List Publication) :
    (numbered published).map (·.2) = published.map (·.author) := by
  refine List.ext_getElem? fun i => ?_
  rw [List.getElem?_map, List.getElem?_map, getElem?_numbered, Option.map_map]
  rfl

/-- What a request of an operation adds to the published versions: nothing, or the next version,
by this operation. -/
structure Adds (site : Site) (m m' : Memory) (published : List Publication) (event : Event)
    (more : Option Publication) : Prop where
  grows : site.Grows m m'
  records : Records site m' (published ++ more.toList)
  event : event.published? site =
    more.map fun p => (UInt64.ofNat published.length, p.author)

section Adds

variable {client : Nat}

theorem adds_nothing (hRecords : Records site m published) {event : Event}
    (hEvent : event.published? site = none) : Adds site m m published event none := by
  refine ⟨.refl m, ?_, hEvent⟩
  rw [Option.toList_none, List.append_nil]
  exact hRecords

/-- An object that is neither a root nor in the place of another adds no version. -/
theorem adds_object (hRecords : Records site m published) {path : String} {blob : Storage.Blob}
    (hPath : ∀ v, path ≠ RootPath.ofVersion v)
    (hGrows : site.Grows m (m.insert (site.resolve path) blob)) {event : Event}
    (hEvent : event.published? site = none) :
    Adds site m (m.insert (site.resolve path) blob) published event none := by
  refine ⟨hGrows, ?_, hEvent⟩
  rw [Option.toList_none, List.append_nil]
  refine hRecords.grows hGrows fun v => TextMap.get?_insert_of_ne _ (fun hSame => ?_) _
  exact hPath v (site.resolve_injective hSame).symm

/-- The creation of a root adds the version, if it finds nothing and nothing is left out. -/
theorem adds_root (hRecords : Records site m published) {p : Publication} {v : Version}
    (h : ¬ m.contains (site.resolve (RootPath.ofVersion v)) = true →
      v.toNat = published.length ∧ (published = [] → p.Founds site m) ∧
        ∀ before, published.getLast? = some before → p.Follows site m before.root v) :
    ∃ more, Adds site m
      (Memory.answer (.put (site.resolve (RootPath.ofVersion v)) p.root.blob .createNew) m).2 published
      (.answered client p.author
        (.call (.put (site.resolve (RootPath.ofVersion v)) p.root.blob .createNew))
        (Memory.answer (.put (site.resolve (RootPath.ofVersion v)) p.root.blob .createNew) m).1)
      more := by
  rw [answer_createNew]
  split
  · exact ⟨none, adds_nothing hRecords rfl⟩
  · next hAbsent =>
    obtain ⟨hCount, hFirst, hNext⟩ := h hAbsent
    refine ⟨some p, Site.Grows.insert (get?_of_not_contains hAbsent) _, hRecords.append hCount hFirst hNext, ?_⟩
    show (site.versionAt? _).map _ = _
    rw [site.versionAt?_resolve, RootPath.version?_ofVersion, ← hCount, UInt64.ofNat_toNat]
    rfl

theorem published?_of_error (c : Call) (e : Error) :
    (Event.answered client op (.call c) (.error e)).published? site = none := by
  cases c with
  | put key blob mode => cases mode <;> rfl
  | get key => rfl
  | delete key => rfl
  | list start => rfl
  | head key => rfl

theorem published?_of_not_root {path : String} (hPath : ∀ v, path ≠ RootPath.ofVersion v)
    (blob : Storage.Blob) (outcome : Except Error Storage.WriteOutcome) :
    (Event.answered client op (.call (.put (site.resolve path) blob .createNew)) outcome).published?
      site = none := by
  match outcome with
  | .error e => exact published?_of_error _ e
  | .ok .alreadyExists => rfl
  | .ok .written =>
      show (site.versionAt? _).map _ = none
      rw [site.versionAt?_resolve]
      cases hVersion : RootPath.version? path with
      | none => rfl
      | some v => exact absurd (RootPath.eq_ofVersion_of_version? hVersion) (hPath v)

/-- Where version 0 is absent, it is the next version. -/
theorem next_of_founds (hRecords : Records site m published) {p : Publication}
    (hFounds : p.Founds site m)
    (hAbsent : ¬ m.contains (site.resolve (RootPath.ofVersion 0)) = true) :
    (0 : Version).toNat = published.length ∧ (published = [] → p.Founds site m) ∧
      ∀ before, published.getLast? = some before → p.Follows site m before.root 0 := by
  have hNone : published = [] := by
    rw [hRecords.contains_root_iff] at hAbsent
    exact List.length_eq_zero_iff.mp (Nat.le_zero.mp (Nat.not_lt.mp hAbsent))
  subst hNone
  exact ⟨rfl, fun _ => hFounds, fun _ hLast => nomatch hLast⟩

/-- Where the version after the one at which a transaction began is absent, that one is the last. -/
theorem next_of_follows (hRecords : Records site m published) {p : Publication} {before : Root}
    {v : Version}
    (hBegan : ∀ h, p.author.about? = some h → ∃ q ∈ published, q.root = h.transaction.beginning)
    (hFollows : p.Follows site m before v)
    (hAbsent : ¬ m.contains (site.resolve (RootPath.ofVersion v)) = true) :
    v.toNat = published.length ∧ (published = [] → p.Founds site m) ∧
      ∀ before, published.getLast? = some before → p.Follows site m before.root v := by
  obtain ⟨h, -, -, -, hAuthor, hBeginning, -⟩ := id hFollows
  obtain ⟨q, hq, hRoot⟩ := hBegan h (by rw [hAuthor]; rfl)
  obtain ⟨first, hFirst⟩ := Records.exists_first hq
  obtain ⟨i, hi⟩ := List.getElem?_of_mem hq
  have hLength := (List.getElem?_eq_some_iff.mp hi).1
  have hPlace : (UInt64.ofNat i).toNat = i :=
    UInt64.toNat_ofNat_of_lt' (Nat.lt_of_lt_of_le hLength hRecords.countable)
  rw [← hBeginning, ← hRoot] at hFollows
  obtain ⟨hMore, rfl, -⟩ := hFollows.isVersion (hRecords.isVersion hFirst hi)
  have hNext : (UInt64.ofNat i + 1).toNat = i + 1 := by rw [UInt64.toNat_add_one hMore, hPlace]
  rw [hRecords.contains_root_iff, hNext] at hAbsent
  have hLast : published.length = i + 1 := by omega
  refine ⟨by rw [hNext, hLast], fun hNone => ?_, fun last hEnd => ?_⟩
  · rw [hNone] at hq
    cases hq
  · rw [List.getLast?_eq_getElem?, hLast, Nat.add_sub_cancel, hi] at hEnd
    cases hEnd
    exact hFollows

/-- A call that an operation may make adds at most the next version. -/
theorem adds_of_permitted {c : Call} (hRecords : Records site m published)
    (hBegan : ∀ h, op.about? = some h → ∃ p ∈ published, p.root = h.transaction.beginning)
    (hPermitted : Permitted site m op drawn (.call c)) :
    ∃ more, Adds site m (Memory.answer c m).2 published
      (.answered client op (.call c) (Memory.answer c m).1) more := by
  cases hPermitted with
  | quiet hQuiet =>
      rw [Memory.answer_snd_of_not_write hQuiet]
      refine ⟨none, adds_nothing hRecords ?_⟩
      cases c with
      | put key blob mode => cases hQuiet
      | _ => rfl
  | definition hDrawn hBears =>
      rw [answer_createNew]
      split
      · exact ⟨none, adds_nothing hRecords rfl⟩
      · next hAbsent =>
        exact ⟨none, adds_object hRecords hBears.ne_root (Site.Grows.insert (get?_of_not_contains hAbsent) _)
          (published?_of_not_root hBears.ne_root _ _)⟩
  | @first p hAuthor hFounds =>
      subst hAuthor
      exact adds_root hRecords fun hAbsent => next_of_founds hRecords hFounds hAbsent
  | @next p before version hAuthor hFollows =>
      subst hAuthor
      exact adds_root hRecords fun hAbsent => next_of_follows hRecords hBegan hFollows hAbsent
  | hint blob =>
      have hAnswer : Memory.answer (.put (site.resolve Hint.path) blob .overwrite) m =
          (.ok .written, m.insert (site.resolve Hint.path) blob) := by
        rw [Memory.answer, if_neg fun hBoth => Storage.WriteMode.noConfusion hBoth.1]
      rw [hAnswer]
      exact ⟨none, adds_object hRecords (fun v hSame => RootPath.ofVersion_ne_hint v hSame.symm)
        (grows_insert_hint blob) rfl⟩

/-- A request that an operation may make adds at most the next version, however it is answered. -/
theorem adds_of_serves {r : Request} {a : r.Answer} (hRecords : Records site m published)
    (hBegan : ∀ h, op.about? = some h → ∃ p ∈ published, p.root = h.transaction.beginning)
    (hPermitted : Permitted site m op drawn r) (hServes : System.Serves m r a m') :
    ∃ more, Adds site m m' published (.answered client op r a) more := by
  cases hServes with
  | performed c => exact adds_of_permitted hRecords hBegan hPermitted
  | failed c e hFault => exact ⟨none, adds_nothing hRecords (published?_of_error c e)⟩
  | uuid id => exact ⟨none, adds_nothing hRecords rfl⟩
  | transactionId id => exact ⟨none, adds_nothing hRecords rfl⟩
  | clock time => exact ⟨none, adds_nothing hRecords rfl⟩
  | record measurement => exact ⟨none, adds_nothing hRecords rfl⟩

end Adds

/-! ### The invariant -/

/-- What is known of an operation under way: the transaction that it is about, and that it has been
told nothing but the truth. -/
structure Run.Sound (site : Site) (m : Memory) (published : List Publication) (run : Run) : Prop where
  known : ∀ h, run.operation.about? = some h → h.Known site m published
  fits : run.operation.Fits
  reached : Reaches (Honest site m run.drawn)
    ((run.operation.map Handle.transaction).program site) run.rest
  draws : run.rest.Draws (if run.drawn.isSome then 0 else 1)

theorem Run.Sound.grows {run : Run} {more : List Publication} (h : run.Sound site m published)
    (hGrows : site.Grows m m') : run.Sound site m' (published ++ more) :=
  ⟨fun handle hAbout => (h.known handle hAbout).grows hGrows, h.fits,
    h.reached.mono fun _ _ hHonest => hHonest.grows hGrows, h.draws⟩

/-- What remains of an operation keeps the duties of the whole. -/
theorem Run.Sound.keeps {run : Run} (h : run.Sound site m published)
    (hRecords : Records site m published) :
    run.rest.Keeps (duties site m run.operation run.drawn)
      (Delivers site m published run.operation run.drawn) :=
  h.reached.keeps (run.operation.keeps_program hRecords h.known h.fits)

/-- The answer to a request leaves what remains of the operation as sound as it was. -/
theorem Run.Sound.answer {r : Request} {next : r.Answer → Program Reply} {a : r.Answer}
    {more : List Publication} (h : Run.Sound site m published ⟨op, drawn, .request r next⟩)
    (hGrows : site.Grows m m') (hHonest : Honest site m' (Run.drawnAfter drawn r a) r a) :
    Run.Sound site m' (published ++ more) ⟨op, Run.drawnAfter drawn r a, next a⟩ := by
  obtain ⟨hDraws, hRest⟩ := (draws_request_iff r next _).mp h.draws
  have hReached := h.reached.mono fun _ _ hAnswer => hAnswer.grows hGrows
  refine ⟨fun handle hAbout => (h.known handle hAbout).grows hGrows, h.fits, ?_, ?_⟩
  · cases r with
    | freshUuid =>
        cases drawn with
        | none => exact .answer (hReached.mono fun _ _ hAnswer => hAnswer.of_none _) hHonest
        | some id => cases hDraws
    | call c => exact .answer hReached hHonest
    | freshTransactionId => exact .answer hReached hHonest
    | clock => exact .answer hReached hHonest
    | record measurement => exact .answer hReached hHonest
  · cases r with
    | freshUuid =>
        cases drawn with
        | none => exact hRest a
        | some id => cases hDraws
    | call c => exact hRest a
    | freshTransactionId => exact hRest a
    | clock => exact hRest a
    | record measurement => exact hRest a

/-- A transaction that an operation hands out when it ends is a known one. -/
theorem Run.Sound.known_of_handout {run : Run} {outcome : Except Error Reply} {h : Handle}
    (hRun : Run.Sound site m published run) (hRecords : Records site m published)
    (hOutcome : run.rest.outcome? = some outcome) (hMem : h ∈ run.handout outcome) :
    h.Known site m published := by
  have hKeeps := hRun.keeps hRecords
  cases hRest : run.rest with
  | request r next =>
      rw [hRest] at hOutcome
      cases hOutcome
  | fail e =>
      rw [hRest] at hOutcome
      cases hOutcome
      cases hMem
  | done reply =>
      rw [hRest] at hOutcome hKeeps
      cases hOutcome
      cases reply with
      | transaction t =>
          cases List.mem_singleton.mp hMem
          exact (keeps_done _).mp hKeeps t rfl
      | _ => cases hMem

namespace System

/-- The invariant of all clients at one store. -/
structure Sound (site : Site) (s : System) (published : List Publication) : Prop where
  records : Records site s.store published
  handles : ∀ h ∈ s.handles, h.Known site s.store published
  runs : ∀ client run, s.runs client = some run → run.Sound site s.store published
  log : s.published site = numbered published

theorem sound_initial (site : Site) : initial.Sound site [] :=
  ⟨.empty site, fun _ hMem => (nomatch hMem), fun _ _ hRun => (nomatch hRun), rfl⟩

variable {s s' : System}

theorem runs_withRun {client other : Nat} {run : Option Run} {found : Run}
    (h : (s.withRun client run).runs other = some found) :
    (other = client ∧ run = some found) ∨ s.runs other = some found := by
  have hUpdate : Function.update s.runs client run other = some found := h
  by_cases hSame : other = client
  · subst hSame
    rw [Function.update_self] at hUpdate
    exact .inl ⟨rfl, hUpdate⟩
  · rw [Function.update_of_ne hSame] at hUpdate
    exact .inr hUpdate

/-- A step keeps the invariant. It loses nothing but the hint, and it adds at most one version. -/
theorem Sound.step (hSound : s.Sound site published) (hStep : Step site s s') :
    site.Grows s.store s'.store ∧ ∃ more, s'.Sound site (published ++ more) := by
  have hFresh : s.Sound site (published ++ []) := (List.append_nil published).symm ▸ hSound
  cases hStep with
  | @start client op hIdle hKnown hFits =>
      refine ⟨.refl _, [], hFresh.records, hFresh.handles, fun other run hRun => ?_, hFresh.log⟩
      rcases runs_withRun hRun with ⟨rfl, hSame⟩ | hRun
      · cases hSame
        exact ⟨fun h hAbout => hFresh.handles h (hKnown h hAbout), hFits, .start,
          Operation.draws_program _⟩
      · exact hFresh.runs other run hRun
  | @answer client op drawn r next a store hRun hServes =>
      have hKeeps := (keeps_request r next).mp ((hSound.runs client _ hRun).keeps hSound.records)
      obtain ⟨more, hAdds⟩ :
          ∃ more, Adds site s.store store published (.answered client op r a) more :=
        adds_of_serves hSound.records
          (fun h hAbout => ((hSound.runs client _ hRun).known h hAbout).1) hKeeps.1 hServes
      refine ⟨hAdds.grows, more.toList, hAdds.records, ?_, fun other run hOther => ?_, ?_⟩
      · exact fun h hMem => (hSound.handles h hMem).grows hAdds.grows
      · rcases runs_withRun hOther with ⟨rfl, hSame⟩ | hOther
        · cases hSame
          exact (hSound.runs _ _ hRun).answer hAdds.grows (honest_of_serves hServes)
        · exact (hSound.runs other run hOther).grows hAdds.grows
      · show (s.log ++ [_]).filterMap (Event.published? site) = _
        rw [List.filterMap_append, show s.log.filterMap (Event.published? site) = _ from hSound.log,
          List.filterMap_cons, List.filterMap_nil, hAdds.event]
        cases more with
        | none => rw [Option.toList_none, List.append_nil]; exact List.append_nil _
        | some p => exact (numbered_append_singleton published p).symm
  | @finish client run outcome hRun hOutcome =>
      refine ⟨.refl _, [], hFresh.records, fun h hMem => ?_, fun other found hOther => ?_, ?_⟩
      · rcases List.mem_append.mp hMem with hMem | hMem
        · exact hFresh.handles h hMem
        · exact (hFresh.runs client run hRun).known_of_handout hFresh.records hOutcome hMem
      · rcases runs_withRun hOther with ⟨rfl, hSame⟩ | hOther
        · cases hSame
        · exact hFresh.runs other found hOther
      · show (s.log ++ [_]).filterMap (Event.published? site) = _
        rw [List.filterMap_append, show s.log.filterMap (Event.published? site) = _ from hFresh.log]
        exact List.append_nil _

/-- Any number of steps keeps the invariant. -/
theorem Sound.steps (hSound : s.Sound site published) (hSteps : Steps site s s') :
    site.Grows s.store s'.store ∧ ∃ more, s'.Sound site (published ++ more) := by
  induction hSteps with
  | refl => exact ⟨.refl _, [], (List.append_nil published).symm ▸ hSound⟩
  | tail _ hStep ih =>
      obtain ⟨hGrows, more, hMiddle⟩ := ih
      obtain ⟨hGrowsMore, evenMore, hLast⟩ := hMiddle.step hStep
      rw [List.append_assoc] at hLast
      exact ⟨hGrows.trans hGrowsMore, more ++ evenMore, hLast⟩

/-- The invariant holds in every state that clients can bring about. -/
theorem Reachable.sound (h : Reachable site s) : ∃ published, s.Sound site published := by
  obtain ⟨-, published, hSound⟩ := (sound_initial site).steps h
  exact ⟨published, hSound⟩

end System

end SnapshotCatalog
