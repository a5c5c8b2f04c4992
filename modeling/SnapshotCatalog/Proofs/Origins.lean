import SnapshotCatalog.Proofs.Questions
import SnapshotCatalog.Proofs.Serialization
/-!
Where the rows of a root come from. Every transaction in anyone's hands was delivered by a call that
is in the log, and a commit publishes what such transactions were made into. So each root in use is
what calls in the log made of no rows at all, and the definitions that they brought are stored.
-/
namespace SnapshotCatalog

open Storage (Memory)

/-- The operation during which something happened. -/
def Event.operation : Event → Operation Handle
  | .answered _ op _ _ => op
  | .ended _ op _ => op

theorem Program.eq_done_of_outcome? {α : Type} {p : Program α} {value : α}
    (h : p.outcome? = some (.ok value)) : p = .done value := by
  cases p with
  | done found =>
      cases h
      rfl
  | fail e => cases h
  | request r next => cases h

/-- The roots that are in use: those of committed versions, and the private ones of transactions. -/
inductive System.Uses (site : Site) (s : System) : Root → Prop
  | committed {v : Version} {r : Root} (h : site.rootAt? s.store v = some r) : Uses site s r
  | running {h : Handle} (hMem : h ∈ s.handles) : Uses site s h.transaction.running

/-! ### What the log tells of transactions -/

/-- A mutation made one transaction of another: it touched the row of its key, and the definition
that it brought is stored. -/
def Mutation.Makes (site : Site) (m : Memory) (mutation : Mutation) (before after : Transaction) :
    Prop :=
  mutation.Stored site m ∧ ∃ d key, Governs site m before.running.lakehouseDefPath d ∧
    mutation.change.key d.keyLimits = .ok key ∧
    after = before.withRunning (mutation.touch before.running key)

theorem Mutation.Makes.grows {site : Site} {m m' : Memory} {mutation : Mutation}
    {before after : Transaction} (h : mutation.Makes site m before after)
    (hGrows : site.Grows m m') : mutation.Makes site m' before after := by
  obtain ⟨hStored, d, key, hGoverns, hRest⟩ := h
  exact ⟨hStored.grows hGrows, d, key, hGoverns.grows hGrows, hRest⟩

/-- A change that has ended well was a mutation. -/
theorem Run.Sound.makes {site : Site} {m : Memory} {published : List Publication} {run : Run}
    (hRun : Run.Sound site m published run) {h : Handle} {c : Change}
    (hOperation : run.operation = .change h c) {t : Transaction}
    (hRest : run.rest = .done (.transaction t)) :
    (⟨c, run.drawn⟩ : Mutation).Makes site m h.transaction t := by
  obtain ⟨op, drawn, rest⟩ := run
  obtain rfl : op = .change h c := hOperation
  obtain rfl : rest = .done (.transaction t) := hRest
  obtain ⟨-, d, hSound⟩ := hRun.known h rfl
  have hKeeps : ((c.program site h.transaction).replying .transaction).Keeps
      (duties site m (.change h c) drawn) fun reply => ∀ t, reply = .transaction t →
        (⟨c, drawn⟩ : Mutation).Makes site m h.transaction t := by
    refine Program.Keeps.replying
      ((Change.keeps_program hSound.governs_running hRun.fits.of_change).weaken fun t ht => ?_)
    obtain ⟨hStored, key, hKey, hTouch⟩ := ht
    rintro _ ⟨⟩
    exact ⟨hStored, d, key, hSound.governs_running, Change.key_of_target hKey, hTouch⟩
  exact (Program.keeps_done _).mp (hRun.reached.keeps hKeeps) t rfl

namespace System

/-- A mutation was made by a call in the log. -/
def Made (site : Site) (s : System) (mutation : Mutation) : Prop :=
  ∃ client h t, Event.ended client (.change h mutation.change) (.ok (.transaction t)) ∈ s.log ∧
    mutation.Makes site s.store h.transaction t

/-- What is under way or in the log is about transactions that were handed out. -/
structure Attributed (s : System) : Prop where
  runs : ∀ client run, s.runs client = some run →
    ∀ h, run.operation.about? = some h → h ∈ s.handles
  log : ∀ event ∈ s.log, ∀ h, event.operation.about? = some h → h ∈ s.handles

/-- Each change in the log that ended well was a mutation, and each mutation of a transaction was
made by a call in the log. -/
structure Traced (site : Site) (s : System) : Prop where
  changes : ∀ client h c t, Event.ended client (.change h c) (.ok (.transaction t)) ∈ s.log →
    ∃ drawn, (⟨c, drawn⟩ : Mutation).Makes site s.store h.transaction t
  made : ∀ h ∈ s.handles, ∀ mutation ∈ h.past, s.Made site mutation

variable {site : Site} {s s' : System} {published : List Publication}

theorem Attributed.step (h : s.Attributed) (hStep : Step site s s') : s'.Attributed := by
  cases hStep with
  | @start client op hIdle hKnown hFits =>
      refine ⟨fun other run hRun => ?_, h.log⟩
      rcases runs_withRun hRun with ⟨rfl, hSame⟩ | hRun
      · cases hSame
        exact hKnown
      · exact h.runs other run hRun
  | @answer client op drawn r next a store hRun hServes =>
      have hAbout := h.runs client _ hRun
      refine ⟨fun other run hOther => ?_, fun event hMem => ?_⟩
      · rcases runs_withRun hOther with ⟨rfl, hSame⟩ | hOther
        · cases hSame
          exact hAbout
        · exact h.runs other run hOther
      · rcases List.mem_append.mp hMem with hMem | hMem
        · exact h.log event hMem
        · rw [List.mem_singleton.mp hMem]
          exact hAbout
  | @finish client run outcome hRun hOutcome =>
      have hHandles : ∀ handle ∈ s.handles, handle ∈ s.handles ++ run.handout outcome :=
        fun _ => List.mem_append_left _
      have hAbout := h.runs client run hRun
      refine ⟨fun other found hOther handle hFound => ?_, fun event hMem handle hFound => ?_⟩
      · rcases runs_withRun hOther with ⟨rfl, hSame⟩ | hOther
        · cases hSame
        · exact hHandles handle (h.runs other found hOther handle hFound)
      · rcases List.mem_append.mp hMem with hMem | hMem
        · exact hHandles handle (h.log event hMem handle hFound)
        · rw [List.mem_singleton.mp hMem] at hFound
          exact hHandles handle (hAbout handle hFound)

theorem Reachable.attributed (hReach : Reachable site s) : s.Attributed := by
  induction hReach with
  | refl => exact ⟨fun _ _ hRun => (nomatch hRun), fun _ hMem => (nomatch hMem)⟩
  | tail _ hStep ih => exact ih.step hStep

theorem Made.mono {mutation : Mutation} (h : s.Made site mutation)
    (hLog : ∀ event ∈ s.log, event ∈ s'.log) (hGrows : site.Grows s.store s'.store) :
    s'.Made site mutation := by
  obtain ⟨client, handle, t, hEvent, hMakes⟩ := h
  exact ⟨client, handle, t, hLog _ hEvent, hMakes.grows hGrows⟩

theorem Made.stored {mutation : Mutation} (h : s.Made site mutation) :
    mutation.Stored site s.store := by
  obtain ⟨_, _, _, -, hStored, -⟩ := h
  exact hStored

/-- A transaction that an operation hands out was made by calls, the last of which is that
operation. -/
theorem Traced.made_of_handout (hTraced : s.Traced site) (hAttributed : s.Attributed) {client : Nat}
    {run : Run} (hRun : s.runs client = some run) (hSound : run.Sound site s.store published)
    {outcome : Except Error Reply} (hOutcome : run.rest.outcome? = some outcome)
    (hLog : ∀ event ∈ s.log, event ∈ s'.log) (hGrows : site.Grows s.store s'.store)
    (hEnded : .ended client run.operation outcome ∈ s'.log) {h : Handle}
    (hMem : h ∈ run.handout outcome) {mutation : Mutation} (hPast : mutation ∈ h.past) :
    s'.Made site mutation := by
  obtain ⟨t, rfl, rfl⟩ : ∃ t, outcome = .ok (.transaction t) ∧
      h = ⟨t, run.operation.past run.drawn⟩ := by
    rcases outcome with e | reply
    · cases hMem
    · cases reply with
      | transaction t => exact ⟨t, rfl, List.mem_singleton.mp hMem⟩
      | _ => cases hMem
  have hRest := Program.eq_done_of_outcome? hOutcome
  cases hOperation : run.operation with
  | change before c =>
      rw [hOperation] at hPast hEnded
      rcases List.mem_append.mp hPast with hEarlier | hLast
      · have hBefore := hAttributed.runs client run hRun before (by rw [hOperation]; rfl)
        exact (hTraced.made before hBefore mutation hEarlier).mono hLog hGrows
      · obtain rfl := List.mem_singleton.mp hLast
        exact ⟨client, before, t, hEnded, (hSound.makes hOperation hRest).grows hGrows⟩
  | _ =>
      rw [hOperation] at hPast
      cases hPast

theorem Traced.step (hTraced : s.Traced site) (hAttributed : s.Attributed)
    (hSound : s.Sound site published) (hStep : Step site s s') : s'.Traced site := by
  have hGrows := (hSound.step hStep).1
  -- What was said of the calls that ended before stays true.
  have hStays {client h c t}
      (hMem : Event.ended client (.change h c) (.ok (.transaction t)) ∈ s.log) :
      ∃ drawn, (⟨c, drawn⟩ : Mutation).Makes site s'.store h.transaction t :=
    (hTraced.changes client h c t hMem).imp fun _ hMakes => hMakes.grows hGrows
  cases hStep with
  | start hIdle hKnown hFits => exact ⟨hTraced.changes, hTraced.made⟩
  | answer hRun hServes =>
      refine ⟨fun client h c t hMem => ?_, fun h hMem mutation hPast => ?_⟩
      · rcases List.mem_append.mp hMem with hMem | hMem
        · exact hStays hMem
        · cases List.mem_singleton.mp hMem
      · exact (hTraced.made h hMem mutation hPast).mono (fun _ => List.mem_append_left _) hGrows
  | @finish client run outcome hRun hOutcome =>
      have hRunSound := hSound.runs client run hRun
      refine ⟨fun other h c t hMem => ?_, fun h hMem mutation hPast => ?_⟩
      · rcases List.mem_append.mp hMem with hMem | hMem
        · exact hStays hMem
        · obtain ⟨rfl, hOperation, rfl⟩ := Event.ended.inj (List.mem_singleton.mp hMem)
          exact ⟨run.drawn,
            hRunSound.makes hOperation.symm (Program.eq_done_of_outcome? hOutcome)⟩
      · rcases List.mem_append.mp hMem with hOld | hNew
        · exact (hTraced.made h hOld mutation hPast).mono (fun _ => List.mem_append_left _) hGrows
        · exact hTraced.made_of_handout hAttributed hRun hRunSound hOutcome
            (fun _ => List.mem_append_left _) hGrows
            (List.mem_append_right _ (List.mem_singleton_self _)) hNew hPast

/-- In every state that clients can bring about, transactions can be traced to calls in the log. -/
theorem Reachable.traced (hReach : Reachable site s) : s.Traced site := by
  induction hReach with
  | refl => exact ⟨fun _ _ _ _ hMem => (nomatch hMem), fun _ hMem => (nomatch hMem)⟩
  | tail hBefore hStep ih =>
      obtain ⟨published, hSound⟩ := Reachable.sound hBefore
      exact ih.step (Reachable.attributed hBefore) hSound hStep

/-- The transaction that published a version was handed out before. -/
theorem Attributed.mem_of_author (hAttributed : s.Attributed) (hSound : s.Sound site published)
    {p : Publication} (hp : p ∈ published) {h : Handle} (hAuthor : p.author.about? = some h) :
    h ∈ s.handles := by
  have hMem : p.author ∈ (s.published site).map (·.2) := by
    rw [hSound.log, map_snd_numbered]
    exact List.mem_map_of_mem hp
  obtain ⟨⟨version, op⟩, hEntry, rfl⟩ := List.mem_map.mp hMem
  obtain ⟨event, hEvent, hPublished⟩ := List.mem_filterMap.mp hEntry
  have hOperation : event.operation = p.author := by
    unfold Event.published? at hPublished
    split at hPublished
    · obtain ⟨_, -, hSame⟩ := Option.map_eq_some_iff.mp hPublished
      exact (Prod.mk.inj hSame).2
    · cases hPublished
  exact hAttributed.log event hEvent h (hOperation ▸ hAuthor)

/-! ### What rows go back to -/

/-- What a root goes back to: the creation of the lakehouse whose definition it names, and mutations
that calls in the log made, which lead from no rows to its rows. -/
structure Origin (site : Site) (s : System) (r : Root) (d : LakehouseDef) (past : List Mutation) :
    Prop where
  created : (s.published site)[0]? = some (0, .create d)
  founded : ∃ first, site.rootAt? s.store 0 = some first ∧
    first.lakehouseDefPath = r.lakehouseDefPath
  governs : Governs site s.store r.lakehouseDefPath d
  replayed : replay d.keyLimits .empty past = .ok r.rows
  made : ∀ mutation ∈ past, s.Made site mutation

variable {r other : Root} {d d' : LakehouseDef} {past past' : List Mutation}

/-- All roots go back to the creation of one lakehouse. -/
theorem Origin.unique (h : s.Origin site r d past) (hOther : s.Origin site other d' past') :
    d = d' := by
  have hSame := h.created.symm.trans hOther.created
  exact Operation.create.inj (Prod.mk.inj (Option.some.inj hSame)).2

theorem Sound.origin_published (hSound : s.Sound site published) (hAttributed : s.Attributed)
    (hTraced : s.Traced site) {i : Nat} {p : Publication} (hp : published[i]? = some p) :
    ∃ d, s.Origin site p.root d ((published.take (i + 1)).flatMap (·.author.mutations)) := by
  have hRecords := hSound.records
  obtain ⟨first, hFirst⟩ := Records.exists_first (List.mem_of_getElem? hp)
  obtain ⟨d, hCreate, hGoverns⟩ := hRecords.governs hFirst
  have hPath := (hRecords.isVersion hFirst hp).lakehouseDefPath
  refine ⟨d, ?_, ⟨first.root, ?_, hPath.symm⟩, hPath ▸ hGoverns,
    hRecords.replay_all hFirst hGoverns hp, fun mutation hMem => ?_⟩
  · rw [hSound.log, getElem?_numbered, hFirst, Option.map_some, hCreate]
    rfl
  · rw [hRecords.rootAt?_eq, UInt64.toNat_zero, hFirst]
    rfl
  · obtain ⟨q, hq, hMutation⟩ := List.mem_flatMap.mp hMem
    cases hAuthor : q.author with
    | commit h =>
        rw [hAuthor] at hMutation
        have hHandle := hAttributed.mem_of_author hSound (List.mem_of_mem_take hq)
          (by rw [hAuthor]; rfl : q.author.about? = some h)
        exact hTraced.made h hHandle mutation hMutation
    | _ =>
        rw [hAuthor] at hMutation
        cases hMutation

theorem Sound.origin_running (hSound : s.Sound site published) (hAttributed : s.Attributed)
    (hTraced : s.Traced site) {h : Handle} (hMem : h ∈ s.handles) : ∃ d past, s.Origin site h.transaction.running d past := by
  obtain ⟨⟨p, hp, hBeginning⟩, d', hHandle⟩ := hSound.handles h hMem
  obtain ⟨i, hi⟩ := List.getElem?_of_mem hp
  obtain ⟨d, hOrigin⟩ := hSound.origin_published hAttributed hTraced hi
  rw [hBeginning] at hOrigin
  obtain rfl := hHandle.governs.unique hOrigin.governs
  have hPath := hHandle.lakehouseDefPath_running
  refine ⟨d', (published.take (i + 1)).flatMap (·.author.mutations) ++ h.past, hOrigin.created,
    hPath ▸ hOrigin.founded, hHandle.governs_running, ?_, fun mutation hMutation => ?_⟩
  · rw [replay_append, hOrigin.replayed]
    show replay d'.keyLimits h.transaction.beginning.rows h.past = _
    rw [← Root.map_rows_replay, hHandle.replayed]
    rfl
  · rcases List.mem_append.mp hMutation with hEarlier | hLater
    · exact hOrigin.made mutation hEarlier
    · exact hTraced.made h hMem mutation hLater

/-- Every root in use goes back to a creation and to calls in the log. -/
theorem Reachable.origin (hReach : Reachable site s) (hUses : s.Uses site r) :
    ∃ d past, s.Origin site r d past := by
  obtain ⟨published, hSound⟩ := hReach.sound
  cases hUses with
  | @committed v r hRoot =>
      rw [hSound.records.rootAt?_eq] at hRoot
      obtain ⟨p, hp, rfl⟩ := Option.map_eq_some_iff.mp hRoot
      exact (hSound.origin_published hReach.attributed hReach.traced hp).imp fun d hOrigin => ⟨_, hOrigin⟩
  | running hMem => exact hSound.origin_running hReach.attributed hReach.traced hMem

/-- The rows of a root are those of the catalog that its mutations make out of nothing. -/
theorem Origin.depicts (h : s.Origin site r d past) :
    Depicts site s.store d.keyLimits r.rows (Catalog.ofChanges (past.map (·.change))) :=
  (Depicts.empty site s.store d.keyLimits).replay
    (fun mutation hMem => (h.made mutation hMem).stored) h.replayed

/-- In every state that comes later the definitions that a root goes back to are still there. -/
theorem Origin.finds_query {m : Memory} (h : s.Origin site r d past) (hGrows : site.Grows s.store m)
    {t : Transaction} (hRunning : t.running = r) (q : Query) :
    Finds site m (q.program site t) ((Catalog.ofChanges (past.map (·.change))).answer d q) := by
  subst hRunning
  exact (h.depicts.finds_query h.governs q).grows hGrows

end System

/-- A row is there from the start, or a mutation of its key brought what it names. -/
theorem exists_mutation_of_replay {limits : KeyLimits} {rows last : TextMap String}
    {past : List Mutation} (h : replay limits rows past = .ok last) {key path : String}
    (hGet : last.get? key = some path) :
    rows.get? key = some path ∨ ∃ mutation ∈ past, mutation.place? = some path ∧
      mutation.change.key limits = .ok key := by
  induction past generalizing rows with
  | nil =>
      cases h
      exact .inl hGet
  | cons mutation rest ih =>
      obtain ⟨next, hNext, hRest⟩ := bind_eq_ok.mp h
      obtain ⟨_, hApply, rfl⟩ := map_eq_ok.mp hNext
      obtain ⟨touched, hTarget, rfl⟩ := map_eq_ok.mp hApply
      rcases ih hRest with hThere | ⟨later, hMem, hLater⟩
      · rw [Depicts.get?_touch] at hThere
        split at hThere
        · next hSame =>
          subst hSame
          exact .inr ⟨mutation, List.mem_cons_self, hThere, Change.key_of_target hTarget⟩
        · exact .inl hThere
      · exact .inr ⟨later, List.mem_cons_of_mem _ hMem, hLater⟩

end SnapshotCatalog
