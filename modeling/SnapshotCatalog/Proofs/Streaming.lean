import SnapshotCatalog.Proofs.RootReads
import SnapshotCatalog.Proofs.Snapshots
/-!
Reading the history while others publish. A history is read poll by poll, and between two polls, as
between two requests of one poll, any number of versions may be published. The first poll settles
everything: it finds a version that was the newest while it went on, and from there on every poll reads
the root below the last one, which was stored before and is never changed.
-/
namespace SnapshotCatalog

open Storage (Memory)
open Program

namespace Chain

/-- A poll of a history: when it began, when it had ended, what it exchanged in between and what it
showed. -/
structure Poll where
  start : Nat
  finish : Nat
  exchanges : List Exchange
  outcome : Except Error (Option Root)

namespace Poll

/-- The poll goes on from this cursor, in the history of a store that performs every call. -/
def From (p : Poll) (site : Site) (store : Nat → Memory) (cursor : Cursor) : Prop :=
  (poll site cursor).ServedDuring store p.start p.finish p.exchanges p.outcome

/-- The poll cost one read, that of the root which it showed, or it showed none and cost nothing. -/
def Frugal (p : Poll) (site : Site) : Prop :=
  match p.outcome with
  | .ok (some r) => ∃ v, r.location = some (.ofVersion v) ∧ Exchange.ReadOnce site v p.exchanges
  | _ => p.exchanges = []

/-- What polls show in all: roots, and the error that ended the history, if one did. -/
def shown : List Poll → List Root × Option Error
  | [] => ([], none)
  | p :: later =>
    match p.outcome with
    | .error e => ([], some e)
    | .ok none => ([], none)
    | .ok (some r) => (r :: (shown later).1, (shown later).2)

/-- What polls show one after another from a version on: the roots of so many versions downwards, and
then the end. -/
def countdown (root : Version → Root) (v : Version) (count : Nat) :
    List (Except Error (Option Root)) :=
  (downFrom v count).map (fun v => .ok (some (root v))) ++ [.ok none]

end Poll

/-- So many polls of a history from a cursor on, or fewer if the history ends before. Each of them
begins some time after the one before it has ended. -/
inductive Polls (site : Site) (store : Nat → Memory) : Nat → Cursor → Nat → List Poll → Prop
  | stop (cursor : Cursor) (start : Nat) : Polls site store 0 cursor start []
  | root {left start : Nat} {cursor : Cursor} {p : Poll} {r : Root} {later : List Poll}
      (hStart : start ≤ p.start) (hPoll : p.From site store cursor) (hRoot : p.outcome = .ok (some r))
      (hLater : Polls site store left (.after r) p.finish later) :
      Polls site store (left + 1) cursor start (p :: later)
  | last {left start : Nat} {cursor : Cursor} {p : Poll}
      (hStart : start ≤ p.start) (hPoll : p.From site store cursor)
      (hEnd : ∀ r, p.outcome ≠ .ok (some r)) : Polls site store (left + 1) cursor start [p]

end Chain

open Chain

variable {site : Site} {store : Nat → Memory} {start finish : Nat} {trace : List Exchange}

/-- Reading on is polling and nothing else. -/
theorem Program.ServedDuring.exists_polls {polls : Nat} {cursor : Cursor}
    {outcome : Except Error (List Root × Option Error)}
    (h : (readOn site polls cursor).ServedDuring store start finish trace outcome) :
    ∃ made, Polls site store polls cursor start made ∧ trace = made.flatMap Poll.exchanges ∧
      outcome = .ok (Poll.shown made) := by
  induction polls generalizing cursor start finish trace outcome with
  | zero =>
      obtain ⟨rfl, rfl⟩ := h.ran.of_done
      exact ⟨[], .stop cursor start, rfl, rfl⟩
  | succ polls ih =>
      rcases h.of_bind with ⟨result, middle, before, after, rfl, hAttempt, hRest⟩ | ⟨e, -, hAttempt⟩
      · obtain ⟨_, hSame, hPoll⟩ := hAttempt.of_attempt
        cases hSame
        rcases result with e | found
        · obtain ⟨rfl, rfl⟩ := hRest.ran.of_done
          refine ⟨[⟨start, middle, before, .error e⟩], ?_, rfl, rfl⟩
          exact .last (Nat.le_refl start) hPoll (by rintro _ ⟨⟩)
        · cases found with
          | none =>
              obtain ⟨rfl, rfl⟩ := hRest.ran.of_done
              refine ⟨[⟨start, middle, before, .ok none⟩], ?_, rfl, rfl⟩
              exact .last (Nat.le_refl start) hPoll (by rintro _ ⟨⟩)
          | some r =>
              rcases of_bind hRest with ⟨_, _, first, second, rfl, hOn, hDone⟩ | ⟨e, -, hOn⟩
              · obtain ⟨made, hMade, rfl, hShown⟩ := ih hOn
                cases hShown
                obtain ⟨rfl, rfl⟩ := hDone.ran.of_done
                refine ⟨⟨start, middle, before, .ok (some r)⟩ :: made, ?_, ?_, rfl⟩
                · exact .root (Nat.le_refl start) hPoll rfl hMade
                · simp
              · obtain ⟨_, -, -, hNever⟩ := ih hOn
                cases hNever
      · obtain ⟨_, hNever, -⟩ := hAttempt.of_attempt
        cases hNever

theorem Chain.asks_history_quiet (site : Site) (polls : Nat) :
    (history site polls).Asks Request.Quiet :=
  asks_readOn (coversChain_quiet site).toCoversLinks polls fun _ =>
    asks_latestRoot (coversChain_quiet site) rfl

/-! ### A chain that is there -/

/-- In a store lies a chain up to a version: the root of each version, and below it the root of the
version before, down to version 0. -/
structure Chain.Laid (site : Site) (m : Memory) (head : Version) (root : Version → Root) : Prop where
  reads : ∀ v ≤ head, Finds site m (readRoot site v) (.ok (root v))
  first : Finds site m (readPrevious site (root 0)) (.ok .start)
  next : ∀ v ≤ head, v ≠ 0 → Finds site m (readPrevious site (root v)) (.ok (.root (root (v - 1))))
  location : ∀ v ≤ head, (root v).location = some (.ofVersion v)

theorem Chain.sub_one_le {v : Version} (h : v ≠ 0) : v - 1 ≤ v := by
  have hLess := toNat_sub_one h
  rw [UInt64.le_iff_toNat_le]
  omega

theorem Records.exists_laid {m : Memory} {published : List Publication} {head : Version}
    (h : Records site m published) (hHead : site.HasHead m head) : ∃ root, Laid site m head root := by
  have hPublished (v : Version) (hv : v ≤ head) : v.toNat < published.length :=
    (h.contains_root_iff v).mp ((hHead.contains_iff v).mpr hv)
  obtain ⟨first, hFirst⟩ : ∃ first, published[0]? = some first :=
    ⟨_, List.getElem?_eq_getElem (hPublished 0 UInt64.zero_le)⟩
  have hRoot (v : Version) (hv : v ≤ head) :
      ∃ p, published[v.toNat]? = some p ∧ (published[v.toNat]?.getD first).root = p.root := by
    rw [List.getElem?_eq_getElem (hPublished v hv)]
    exact ⟨_, rfl, rfl⟩
  refine ⟨fun v => (published[v.toNat]?.getD first).root, ?_, ?_, ?_, ?_⟩
  · intro v hv
    obtain ⟨p, hp, hSame⟩ := hRoot v hv
    rw [hSame]
    exact h.finds_readRoot hp
  · rw [UInt64.toNat_zero, hFirst]
    exact h.finds_readPrevious_first hFirst
  · intro v hv hLater
    obtain ⟨p, hp, hSame⟩ := hRoot v hv
    obtain ⟨q, hq, hBefore⟩ := hRoot (v - 1) (UInt64.le_trans (sub_one_le hLater) hv)
    rw [hSame, hBefore]
    rw [← toNat_sub_one hLater] at hp
    exact h.finds_readPrevious hq hp
  · intro v hv
    obtain ⟨p, hp, hSame⟩ := hRoot v hv
    have hVersion := h.isVersion hFirst hp
    rw [UInt64.ofNat_toNat] at hVersion
    rw [hSame, hVersion.location]

/-- A poll after a root of a version reads the root of the version before it and no other, whatever is
found there, and if it finds that there is none it has read nothing. -/
theorem Chain.Poll.frugal_of_ran {p : Poll} {r : Root} {v : Version} {found : Option Root}
    (hLocation : r.location = some (.ofVersion v)) (h : (poll site (.after r)).Ran p.exchanges p.outcome)
    (hFound : p.outcome = .ok found) : p.Frugal site := by
  rw [hFound] at h
  rcases h.of_bind with ⟨previous, before, after, hTrace, hPrevious, hRest⟩ | ⟨e, hNever, -⟩
  · rcases hPrevious.of_readPrevious hLocation with ⟨rfl, hNone⟩ | ⟨-, hRead, hOpen, hPlace⟩
    · cases previous with
      | root found => exact absurd rfl (hNone found)
      | start =>
          obtain ⟨rfl, hEnd⟩ := hRest.of_done
          cases hEnd
          simpa [Frugal, hFound] using hTrace
      | broken path link => cases hRest.of_fail.2
    · cases previous with
      | root found =>
          obtain ⟨rfl, hEnd⟩ := hRest.of_done
          cases hEnd
          rw [List.append_nil] at hTrace
          simpa [Frugal, hFound, hTrace] using ⟨_, hPlace found rfl, hRead⟩
      | start => exact absurd rfl hOpen
      | broken path link => cases hRest.of_fail.2
  · cases hNever

namespace Chain

variable {now : Nat} {head v : Version} {root : Version → Root}

theorem Laid.finds_poll {m : Memory} (h : Laid site m head root) (hv : v ≤ head) :
    Finds site m (poll site (.after (root v)))
      (.ok (if v = 0 then none else some (root (v - 1)))) := by
  by_cases hFirst : v = 0
  · subst hFirst
    exact h.first.bind (.done _)
  · rw [if_neg hFirst]
    exact (h.next v hv hFirst).bind (.done _)

@[simp] theorem Poll.countdown_zero : countdown root v 0 = [.ok none] := rfl

@[simp] theorem Poll.countdown_succ (count : Nat) : countdown root v (count + 1) =
    .ok (some (root v)) :: countdown root (v - 1) count := rfl

namespace Laid

variable (h : Laid site (store now) head root)
  (hGrows : ∀ now, site.Grows (store now) (store (now + 1)))

include h hGrows

theorem readRoot_alwaysEnds (hv : v ≤ head) :
    (readRoot site v).AlwaysEnds (fun later => store (now + later)) (.ok (root v)) :=
  .of_finds (fun later => hGrows (now + later)) (h.reads v hv)

/-- What a later poll shows was settled before, and it costs no more than it must. -/
theorem poll_after (hv : v ≤ head) {p : Poll} (hPoll : p.From site store (.after (root v)))
    (hLater : now ≤ p.start) :
    p.outcome = .ok (if v = 0 then none else some (root (v - 1))) ∧ p.Frugal site := by
  have hFinds := (h.finds_poll hv).grows (Site.grows_of_le hGrows hLater)
  have hOutcome := hPoll.eq_of_finds hGrows hFinds
  exact ⟨hOutcome, Poll.frugal_of_ran (h.location v hv) hPoll.ran hOutcome⟩

/-- The polls after the root of a version count down from the version below it. The induction is on the
polls; a poll that shows a root has gone down by one version. -/
theorem polls_after {polls : Nat} {made : List Poll} (hv : v ≤ head)
    (hPolls : Polls site store polls (.after (root v)) start made) (hLater : now ≤ start) :
    made.map Poll.outcome = (Poll.countdown root (v - 1) v.toNat).take polls ∧
      ∀ p ∈ made, p.Frugal site := by
  generalize hCursor : Cursor.after (root v) = cursor at hPolls
  induction hPolls generalizing v with
  | stop => simp
  | @root left start cursor p r later hStart hPoll hRoot hRest ih =>
      subst hCursor
      have hBegun := Nat.le_trans hLater hStart
      obtain ⟨hOutcome, hFrugal⟩ := h.poll_after hGrows hv hPoll hBegun
      by_cases hFirst : v = 0
      · rw [hRoot, if_pos hFirst] at hOutcome
        cases hOutcome
      · rw [hRoot, if_neg hFirst] at hOutcome
        cases hOutcome
        have hEnded := Nat.le_trans hBegun hPoll.runsDuring.le
        obtain ⟨hShown, hCost⟩ := ih (UInt64.le_trans (sub_one_le hFirst) hv) hEnded rfl
        constructor
        · rw [← toNat_sub_one hFirst]
          simp [hRoot, hShown]
        · simpa [hFrugal] using hCost
  | @last left start cursor p hStart hPoll hEnd =>
      subst hCursor
      obtain ⟨hOutcome, hFrugal⟩ := h.poll_after hGrows hv hPoll (Nat.le_trans hLater hStart)
      by_cases hFirst : v = 0
      · subst hFirst
        simp [hOutcome, hFrugal]
      · rw [if_neg hFirst] at hOutcome
        exact absurd hOutcome (hEnd _)

end Laid

end Chain

/-! ### The first poll -/

namespace System

variable {s : System}

/-- On a lakehouse that was created before, a search for the newest version that is served finds one
that was the newest at some instant while it went on, and from then on the chain up to it is there. -/
theorem Reachable.served_latestVersion (hReach : Reachable site s)
    (hFirst : s.store.contains (site.resolve (RootPath.ofVersion 0)) = true)
    (hUnfolds : s.Unfolds site store) {outcome : Except Error Version}
    (h : (latestVersion site).ServedDuring store start finish trace outcome) :
    ∃ head now root, outcome = .ok head ∧ start ≤ now ∧ now ≤ finish ∧
      site.HasHead (store now) head ∧ Laid site (store now) head root := by
  obtain ⟨r, hRoot⟩ := hReach.exists_rootAt? hFirst
  cases (hReach.ascends hUnfolds).tells_latestVersion h.runsDuring with
  | @newest head now hStart hFinish hHead =>
      obtain ⟨-, published, hRecords⟩ := hReach.records_at hUnfolds hRoot now
      obtain ⟨root, hLaid⟩ := hRecords.exists_laid hHead
      exact ⟨head, now, root, rfl, hStart, hFinish, hHead, hLaid⟩
  | @none now hStart hFinish hNone =>
      have hStored := Site.contains_of_rootAt? (hReach.records_at hUnfolds hRoot now).1
      rw [hNone _ (RootPath.isRootPath_ofVersion 0)] at hStored
      cases hStored
  | fault hFault => exact absurd hFault (h.not_faulted (keeps_latestVersion lenient_serving))

/-- The first poll of a history shows the root of the version that it finds. -/
theorem Reachable.first_poll (hReach : Reachable site s)
    (hFirst : s.store.contains (site.resolve (RootPath.ofVersion 0)) = true)
    (hUnfolds : s.Unfolds site store) {p : Poll} (hPoll : p.From site store .head) :
    ∃ head now root, p.outcome = .ok (some (root head)) ∧ p.start ≤ now ∧ now ≤ p.finish ∧
      site.HasHead (store now) head ∧ Laid site (store now) head root := by
  obtain ⟨published, hSound⟩ := hReach.sound
  have hGrows := (hSound.unfolds hUnfolds).1
  have hSearch : ((latestVersion site).bind fun head => (readRoot site head).bind fun r =>
      .done (some r)).ServedDuring store p.start p.finish p.exchanges p.outcome := by
    rw [← bind_assoc]
    exact hPoll
  rcases hSearch.of_bind with ⟨head, middle, before, after, -, hLatest, hRest⟩ | ⟨e, -, hLatest⟩
  · obtain ⟨_, now, root, hFound, hStart, hMiddle, hHead, hLaid⟩ :=
      hReach.served_latestVersion hFirst hUnfolds hLatest
    cases hFound
    have hReads : Finds site (store middle) ((readRoot site head).bind fun r => .done (some r))
        (.ok (some (root head))) :=
      ((hLaid.reads head (UInt64.le_refl head)).grows (Site.grows_of_le hGrows hMiddle)).bind (.done _)
    exact ⟨head, now, root, hRest.eq_of_finds hGrows hReads, hStart,
      Nat.le_trans hMiddle hRest.runsDuring.le, hHead, hLaid⟩
  · obtain ⟨_, _, _, hNever, -⟩ := hReach.served_latestVersion hFirst hUnfolds hLatest
    cases hNever

/-- A history that is read while others publish is that of one moment. Take a lakehouse that was created
before, and let clients do whatever they do. However many polls are asked for, they come to an end if
others leave every other instant to them, and whatever is exchanged belongs to a poll, so that nothing
happens before the first. The first poll finds a version that was the newest at some instant while it
went on. From there the polls show the roots of that version and of every version below it, one after
another, and then the end. Each root is what reading its version shows for ever, and a later poll costs
the one read of the root that it shows, or nothing when it shows none. -/
theorem Reachable.streaming_stable (hReach : Reachable site s)
    (hFirst : s.store.contains (site.resolve (RootPath.ofVersion 0)) = true)
    (hUnfolds : s.Unfolds site store) :
    (∀ polls start, ∃ finish trace outcome, (Chain.history site polls).ServedDuring
      (fun now => store (now / 2)) start finish trace outcome) ∧
    (∀ polls start finish trace outcome,
      (Chain.history site polls).ServedDuring store start finish trace outcome →
        ∃ made, Polls site store polls .head start made ∧ trace = made.flatMap Poll.exchanges ∧
          outcome = .ok (Poll.shown made)) ∧
    ∀ polls start first later, Polls site store polls .head start (first :: later) →
      ∃ head now root, first.start ≤ now ∧ now ≤ first.finish ∧ site.HasHead (store now) head ∧
        (∀ v ≤ head, (Chain.readRoot site v).AlwaysEnds (fun later => store (now + later))
          (.ok (root v))) ∧
        (first :: later).map Poll.outcome =
          (Poll.countdown root head (head.toNat + 1)).take polls ∧
        ∀ p ∈ later, p.Frugal site := by
  obtain ⟨published, hSound⟩ := hReach.sound
  have hGrows := (hSound.unfolds hUnfolds).1
  refine ⟨?_, ?_, ?_⟩
  · intro polls start
    have hRuns := servedDuring_watch store (asks_history_quiet site polls) start
    exact ⟨_, _, _, hRuns.from_earlier (by omega)⟩
  · intro polls start finish trace outcome hRuns
    exact hRuns.exists_polls
  · intro polls start first later hPolls
    cases hPolls with
    | @root _ _ _ _ r _ hStart hPoll hRoot hLater =>
        obtain ⟨head, now, root, hOutcome, hBegun, hEnded, hHead, hLaid⟩ :=
          hReach.first_poll hFirst hUnfolds hPoll
        obtain rfl : root head = r := by simpa [hRoot] using hOutcome.symm
        obtain ⟨hShown, hCost⟩ := hLaid.polls_after hGrows (UInt64.le_refl head) hLater hEnded
        refine ⟨head, now, root, hBegun, hEnded, hHead, ?_, ?_, hCost⟩
        · intro v hv
          exact hLaid.readRoot_alwaysEnds hGrows hv
        · simp [hOutcome, hShown]
    | last hStart hPoll hEnd =>
        obtain ⟨_, _, _, hOutcome, -⟩ := hReach.first_poll hFirst hUnfolds hPoll
        exact absurd hOutcome (hEnd _)

end System

/-! ### A namespace that is dropped meanwhile -/

namespace Session

/-- The store of the sample lakehouse, in which version 2 is published after four instants. -/
def duringRemoval (now : Nat) : Memory :=
  if now / 4 = 0 then afterSample.store else afterRemoval.store

/-- A history that is read from the beginning takes four requests to find its newest version. -/
theorem run_duringRemoval :
    ∃ roots, ((Chain.history .top 5).run (watch duringRemoval) 0).1 = .ok (roots, none) ∧
      roots.map (·.location) = [some (.ofVersion 1), some (.ofVersion 0)] := by
  have hRun : ((Chain.history .top 5).run (watch duringRemoval) 0).1.toOption.map
      (fun shown => (shown.1.map (·.location), shown.2.isNone)) =
        some ([some (.ofVersion 1), some (.ofVersion 0)], true) := by
    decide +kernel
  generalize ((Chain.history .top 5).run (watch duringRemoval) 0).1 = outcome at hRun
  cases outcome with
  | error e => cases hRun
  | ok shown =>
      obtain ⟨roots, error⟩ := shown
      simp only [Except.toOption, Option.map_some, Option.some.injEq, Prod.mk.injEq,
        Option.isNone_iff_eq_none] at hRun
      exact ⟨roots, by rw [hRun.2], hRun.1⟩

end Session

/-- A version that is published before the first root is read is not part of the history any more. -/
theorem System.streaming_stable_duringRemoval : ∃ s, Reachable .top s ∧
    s.Unfolds .top (fun now => Session.duringRemoval (now / 2)) ∧ ∃ first later,
      Polls .top (fun now => Session.duringRemoval (now / 2)) 5 .head 0 (first :: later) ∧
      (Poll.shown (first :: later)).1.map (·.location) =
        [some (.ofVersion 1), some (.ofVersion 0)] ∧
      (Poll.shown (first :: later)).2 = none ∧ ∀ p ∈ later, p.Frugal .top := by
  obtain ⟨s, s', hReach, hSteps, hStore, hLast⟩ :=
    Session.exists_steps .top (.counting 5) Session.sample Session.removal Session.fits_removal
  rw [← Session.afterSample] at hStore
  rw [← Session.afterRemoval] at hLast
  have hUnfolds : s.Unfolds .top fun now => Session.duringRemoval (now / 2) := by
    have hSlow := ((unfolds_of_steps hSteps).slowed 4).slowed 2
    rw [hStore, hLast] at hSlow
    exact hSlow
  have hFirst : s.store.contains (Site.top.resolve (RootPath.ofVersion 0)) = true := by
    rw [hStore]
    exact (Session.hasHead_afterSample.contains_iff 0).mpr UInt64.zero_le
  obtain ⟨-, hPolled, hShows⟩ := hReach.streaming_stable hFirst hUnfolds
  have hRuns := servedDuring_watch Session.duringRemoval (asks_history_quiet .top 5) 0
  obtain ⟨made, hMade, -, hShown⟩ := hPolled 5 _ _ _ _ hRuns
  obtain ⟨roots, hRun, hRoots⟩ := Session.run_duringRemoval
  have hSame : Poll.shown made = (roots, none) := Except.ok.inj (hShown.symm.trans hRun)
  cases made with
  | nil => cases hMade
  | cons first later =>
      obtain ⟨_, _, _, -, -, -, -, -, hCost⟩ := hShows 5 _ first later hMade
      exact ⟨s, hReach, hUnfolds, first, later, hMade, hSame ▸ hRoots, by rw [hSame], hCost⟩

end SnapshotCatalog
