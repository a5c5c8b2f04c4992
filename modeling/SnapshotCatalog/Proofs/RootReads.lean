import SnapshotCatalog.Proofs.ChainVerification
import SnapshotCatalog.Proofs.Exchanges
/-!
Which roots a search reads. Looking for the newest version reads no root, and below a root nothing is
read but the root of the version before it. So whatever is answered, a search reads the newest root
and then one version after another, and it ends no later than at the first version that it would not
go below. This holds of every store, because the answers are not looked at.
-/
namespace SnapshotCatalog

/-- The version whose root a request asks to read, if it asks for one. -/
def Request.rootRead? (site : Site) : Request → Option Version
  | .call (.get key) => site.versionAt? key
  | _ => none

/-- The versions whose roots were asked for, in their order. -/
def Exchange.rootReads (site : Site) (trace : List Exchange) : List Version :=
  trace.filterMap fun x => x.request.rootRead? site

/-- There is one exchange and no more, and it reads the root of this version. -/
def Exchange.ReadOnce (site : Site) (v : Version) (trace : List Exchange) : Prop :=
  ∃ answer, trace = [⟨.call (.get (site.resolve (RootPath.ofVersion v))), answer⟩]

namespace Exchange

variable (site : Site)

@[simp] theorem rootReads_nil : rootReads site [] = [] := rfl

@[simp] theorem rootReads_append (before after : List Exchange) :
    rootReads site (before ++ after) = rootReads site before ++ rootReads site after :=
  List.filterMap_append

variable {site} in
theorem ReadOnce.rootReads {v : Version} {trace : List Exchange} (h : ReadOnce site v trace) :
    rootReads site trace = [v] := by
  obtain ⟨_, rfl⟩ := h
  have hVersion : site.versionAt? (site.resolve (RootPath.ofVersion v)) = some v := by
    rw [site.versionAt?_resolve, RootPath.version?_ofVersion]
  simp [Exchange.rootReads, Request.rootRead?, hVersion]

end Exchange

open Exchange

variable {site : Site} {v : Version} {trace : List Exchange}

/-- Looking for the newest version reads no root. -/
theorem Chain.reads_no_root (site : Site) :
    (latestVersion site).Asks fun r => r.rootRead? site = none := by
  refine asks_latestVersion_of_probes ⟨fun _ => rfl, fun _ => rfl⟩ ?_
  show site.versionAt? (site.resolve Hint.path) = none
  rw [site.versionAt?_resolve]
  cases hVersion : RootPath.version? Hint.path with
  | none => rfl
  | some v => exact absurd (RootPath.eq_ofVersion_of_version? hVersion).symm (RootPath.ofVersion_ne_hint v)

namespace Chain

/-- A root that is parsed knows the place at which it was found. -/
theorem location_of_parseRoot {location : Location} {blob : Storage.Blob} {r : Root}
    (h : parseRoot location blob = .ok r) : r.location = some location := by
  obtain ⟨_, -, hPlaced⟩ := bind_eq_ok.mp h
  cases hPlaced
  rfl

/-- A root points at no path but that of the version before its own. -/
theorem pointer_eq_root {previous : Option String} {path : String}
    (h : pointer v previous = .root path) : v ≠ 0 ∧ path = RootPath.ofVersion (v - 1) := by
  unfold pointer at h
  split at h
  · split at h <;> cases h
  · split at h
    · cases h
    · next hLater =>
      split at h
      · cases h
      · next before hVersion =>
        split at h
        · next hNext =>
          cases h
          have hBefore : before = v - 1 :=
            UInt64.toNat_inj.mp (Nat.succ.inj (hNext.trans (toNat_sub_one hLater).symm))
          exact ⟨hLater, hBefore ▸ RootPath.eq_ofVersion_of_version? hVersion⟩
        · cases h

end Chain

namespace Program.Ran

open Chain

/-- Reading the root of a version reads that root and no other, and the root that is found knows its
place. -/
theorem of_readRoot {outcome : Except Error Root} (h : (readRoot site v).Ran trace outcome) :
    ReadOnce site v trace ∧ ∀ r, outcome = .ok r → r.location = some (.ofVersion v) := by
  have hCall : ((call (.get (site.resolve (RootPath.ofVersion v)))).bind fun blob =>
      ofExcept (parseRoot (.ofVersion v) blob)).Ran trace outcome := by
    rw [readRoot_eq, Site.read, site.key_root] at h
    exact h
  obtain ⟨answer, rest, rfl, hRest⟩ := hCall.of_call_bind
  rcases hRest with ⟨blob, rfl, hParse⟩ | ⟨e, rfl, rfl, rfl⟩
  · obtain ⟨rfl, rfl⟩ := hParse.of_ofExcept
    exact ⟨⟨_, rfl⟩, fun r hRoot => location_of_parseRoot hRoot⟩
  · refine ⟨⟨_, rfl⟩, ?_⟩
    rintro _ ⟨⟩

/-- Below a root no root is read, or that of the version before it. -/
theorem of_readPrevious {r : Root} {outcome : Except Error Previous}
    (hLocation : r.location = some (.ofVersion v)) (h : (readPrevious site r).Ran trace outcome) :
    (trace = [] ∧ ∀ before, outcome ≠ .ok (.root before)) ∨
      v ≠ 0 ∧ ReadOnce site (v - 1) trace ∧ outcome ≠ .ok .start ∧
        ∀ before, outcome = .ok (.root before) → before.location = some (.ofVersion (v - 1)) := by
  simp only [readPrevious, locationOf, hLocation, bind_eq, ofExcept_ok, done_bind,
    Location.ofVersion] at h
  cases hPointer : pointer v r.previousRootPath with
  | start =>
      rw [hPointer] at h
      obtain ⟨rfl, rfl⟩ := of_done h
      refine .inl ⟨rfl, ?_⟩
      rintro _ ⟨⟩
  | broken link =>
      rw [hPointer] at h
      obtain ⟨rfl, rfl⟩ := of_done h
      refine .inl ⟨rfl, ?_⟩
      rintro _ ⟨⟩
  | root path =>
      rw [hPointer] at h
      obtain ⟨hLater, rfl⟩ := pointer_eq_root hPointer
      rcases of_bind h with ⟨answer, before, after, rfl, hAttempt, hNext⟩ | ⟨e, -, hAttempt⟩
      · obtain ⟨result, hAnswer, hRead⟩ := hAttempt.of_attempt
        cases hAnswer
        obtain ⟨hReads, hPlace⟩ := of_readRoot (v := v - 1) hRead
        have hRest : after = [] ∧ outcome ≠ .ok .start ∧
            ∀ found, outcome = .ok (.root found) → answer = .ok found := by
          cases answer with
          | ok found =>
              obtain ⟨rfl, rfl⟩ := of_done hNext
              refine ⟨rfl, ?_, ?_⟩
              · rintro ⟨⟩
              · rintro _ ⟨⟩
                rfl
          | error e =>
              dsimp only at hNext
              split at hNext
              · obtain ⟨rfl, rfl⟩ := of_done hNext
                refine ⟨rfl, ?_, ?_⟩
                · rintro ⟨⟩
                · rintro _ ⟨⟩
              · obtain ⟨rfl, rfl⟩ := of_fail hNext
                refine ⟨rfl, ?_, ?_⟩
                · rintro ⟨⟩
                · rintro _ ⟨⟩
        obtain ⟨rfl, hOpen, hFound⟩ := hRest
        rw [List.append_nil]
        exact .inr ⟨hLater, hReads, hOpen, fun found hSame => hPlace found (hFound found hSame)⟩
      · obtain ⟨result, hAnswer, -⟩ := hAttempt.of_attempt
        cases hAnswer

end Program.Ran

/-! ### Searches -/

namespace Chain.Search

open Program

variable {s : Search} {floor : Version} {r : Root} {outcome : Except Error Root}

/-- A search goes below no root of a version up to this one, unless it is version 0, below which
there is nothing. -/
def StopsAt (s : Search) (floor : Version) : Prop :=
  ∀ w r, w ≤ floor → w ≠ 0 → s.judge (.ofVersion w) r ≠ none

section ForVersion

variable (v w : Version) (r : Root)

/-- A search for a version fails at earlier versions, ends at the version and goes on at later ones. -/
theorem judge_forVersion_cases :
    (w < v ∧ (forVersion v).judge (.ofVersion w) r = some (.error (noVersion v))) ∨
      (w = v ∧ (forVersion v).judge (.ofVersion w) r = some (.ok r)) ∨
      v < w ∧ (forVersion v).judge (.ofVersion w) r = none := by
  by_cases hSame : w = v
  · exact .inr (.inl ⟨hSame, if_pos hSame⟩)
  · by_cases hEarlier : w < v
    · exact .inl ⟨hEarlier, (if_neg hSame).trans (if_pos hEarlier)⟩
    · have hLater : v < w := UInt64.lt_of_le_of_ne (UInt64.not_lt.mp hEarlier) (Ne.symm hSame)
      exact .inr (.inr ⟨hLater, (if_neg hSame).trans (if_neg hEarlier)⟩)

variable {v w r}

theorem judge_forVersion_eq_none :
    (forVersion v).judge (.ofVersion w) r = none ↔ v < w := by
  rcases judge_forVersion_cases v w r with ⟨hEarlier, hJudge⟩ | ⟨rfl, hJudge⟩ | ⟨hLater, hJudge⟩
  · simp [hJudge, UInt64.le_of_lt hEarlier]
  · simp [hJudge]
  · simp [hJudge, hLater]

theorem judge_forVersion_eq_ok {found : Root} :
    (forVersion v).judge (.ofVersion w) r = some (.ok found) ↔ w = v ∧ r = found := by
  rcases judge_forVersion_cases v w r with ⟨hEarlier, hJudge⟩ | ⟨rfl, hJudge⟩ | ⟨hLater, hJudge⟩
  · simp [hJudge, UInt64.ne_of_lt hEarlier]
  · simp [hJudge]
  · simp [hJudge, (UInt64.ne_of_lt hLater).symm]

theorem judge_forVersion_eq_error {e : Error} :
    (forVersion v).judge (.ofVersion w) r = some (.error e) ↔ w < v ∧ noVersion v = e := by
  rcases judge_forVersion_cases v w r with ⟨hEarlier, hJudge⟩ | ⟨rfl, hJudge⟩ | ⟨hLater, hJudge⟩
  · simp [hJudge, hEarlier]
  · simp [hJudge]
  · simp [hJudge, UInt64.not_lt.mpr (UInt64.le_of_lt hLater)]

theorem stopsAt_forVersion (v : Version) : (forVersion v).StopsAt v := by
  intro w r hw _ hOpen
  exact UInt64.not_le.mpr (judge_forVersion_eq_none.mp hOpen) hw

end ForVersion

theorem stopsAt_zero (s : Search) : s.StopsAt 0 := by
  intro w r hw hLater
  exact absurd (UInt64.le_antisymm hw UInt64.zero_le) hLater

/-- A search reads nothing below a root, or it reads the root of the version before it, with which it
ends or from which it goes on. -/
theorem ran_down_step (hStops : s.StopsAt floor) (hLocation : r.location = some (.ofVersion v))
    {below : Nat} (h : (s.down site below r).Ran trace outcome) :
    rootReads site trace = [] ∨ floor < v ∧ v ≠ 0 ∧
      ∃ after, rootReads site trace = (v - 1) :: rootReads site after ∧ (after = [] ∨
        ∃ left before, below = left + 1 ∧ before.location = some (.ofVersion (v - 1)) ∧
          (s.down site left before).Ran after outcome) := by
  cases hJudge : s.judge (.ofVersion v) r with
  | some result =>
      rw [down_judged hLocation hJudge] at h
      obtain ⟨rfl, -⟩ := h.of_ofExcept
      exact .inl rfl
  | none =>
      rw [down_open hLocation hJudge] at h
      rcases h.of_bind with ⟨previous, before, after, rfl, hPrevious, hNext⟩ | ⟨e, -, hPrevious⟩
      · have hAfter : after = [] ∨ ∃ left found, below = left + 1 ∧ previous = .root found ∧
            (s.down site left found).Ran after outcome := by
          cases previous with
          | start => exact .inl hNext.of_fail.1
          | broken path link => exact .inl hNext.of_fail.1
          | root found =>
              cases below with
              | zero => exact .inl hNext.of_fail.1
              | succ left => exact .inr ⟨left, found, rfl, rfl, hNext⟩
        rcases hPrevious.of_readPrevious hLocation with ⟨hNone, hEnd⟩ | ⟨hLater, hReads, -, hPlace⟩
        · rcases hAfter with rfl | ⟨left, found, -, rfl, -⟩
          · exact .inl (by rw [hNone]; rfl)
          · exact absurd rfl (hEnd found)
        · have hAbove : floor < v := UInt64.not_le.mp fun hLe => hStops v r hLe hLater hJudge
          refine .inr ⟨hAbove, hLater, after, by rw [rootReads_append, hReads.rootReads]; rfl, ?_⟩
          refine hAfter.imp_right ?_
          rintro ⟨left, found, rfl, rfl, hDown⟩
          exact ⟨left, found, rfl, hPlace found rfl, hDown⟩
      · rcases hPrevious.of_readPrevious hLocation with ⟨hNone, -⟩ | ⟨hLater, hReads, -⟩
        · exact .inl (by rw [hNone]; rfl)
        · have hAbove : floor < v := UInt64.not_le.mp fun hLe => hStops v r hLe hLater hJudge
          exact .inr ⟨hAbove, hLater, [], hReads.rootReads, .inl rfl⟩

/-- Below a root a search reads one version after another, none of them below the floor. -/
theorem ran_down_reads (hStops : s.StopsAt floor) (hLocation : r.location = some (.ofVersion v))
    {below : Nat} (h : (s.down site below r).Ran trace outcome) :
    ∃ count ≤ v.toNat - floor.toNat, rootReads site trace = downFrom (v - 1) count := by
  induction below generalizing r v trace with
  | zero =>
      rcases ran_down_step hStops hLocation h with
        hNone | ⟨hAbove, -, after, hReads, rfl | ⟨left, before, hLeft, -⟩⟩
      · exact ⟨0, Nat.zero_le _, hNone⟩
      · have hLess := UInt64.lt_iff_toNat_lt.mp hAbove
        exact ⟨1, by omega, hReads⟩
      · cases hLeft
  | succ below ih =>
      rcases ran_down_step hStops hLocation h with
        hNone | ⟨hAbove, hLater, after, hReads, rfl | ⟨left, before, hLeft, hPlace, hDown⟩⟩
      · exact ⟨0, Nat.zero_le _, hNone⟩
      · have hLess := UInt64.lt_iff_toNat_lt.mp hAbove
        exact ⟨1, by omega, hReads⟩
      · cases hLeft
        obtain ⟨count, hCount, hRest⟩ := ih hPlace hDown
        have hLess := UInt64.lt_iff_toNat_lt.mp hAbove
        have hNext := toNat_sub_one hLater
        exact ⟨count + 1, by omega, by rw [hReads, hRest]; rfl⟩

/-- From the newest version on a search reads one version after another, none of them below the
floor unless it is the newest. -/
theorem ran_runFrom_reads (hStops : s.StopsAt floor) {top : Version}
    (h : (s.runFrom site top).Ran trace outcome) :
    ∃ count ≤ top.toNat - floor.toNat + 1, rootReads site trace = downFrom top count := by
  rcases h.of_bind with ⟨head, before, after, rfl, hHead, hDown⟩ | ⟨e, -, hHead⟩
  · obtain ⟨hReads, hPlace⟩ := hHead.of_readRoot
    have hLocation := hPlace head rfl
    rw [down_of_location hLocation] at hDown
    obtain ⟨count, hCount, hRest⟩ := ran_down_reads hStops hLocation hDown
    exact ⟨count + 1, Nat.succ_le_succ hCount, by rw [rootReads_append, hReads.rootReads, hRest]; rfl⟩
  · exact ⟨1, Nat.le_add_left 1 _, hHead.of_readRoot.1.rootReads⟩

/-- Whoever answers, a search that looks for the newest version and finds one reads its root and
then one version after another, none of them below the floor unless it is the newest. -/
theorem rootReads_run (hStops : s.StopsAt floor) {σ : Type}
    {answer : (r : Request) → σ → r.Answer × σ} {w : σ} {head : Version}
    (hHead : ((latestVersion site).run answer w).1 = .ok head) :
    ∃ count ≤ head.toNat - floor.toNat + 1,
      rootReads site ((s.run site).exchanges answer w) = downFrom head count := by
  have hNone : rootReads site ((latestVersion site).exchanges answer w) = [] :=
    List.filterMap_eq_nil_iff.mpr
      ((ran_exchanges answer (latestVersion site) w).of_asks (reads_no_root site))
  rw [s.run_eq, exchanges_bind hHead, rootReads_append, hNone, List.nil_append]
  exact ran_runFrom_reads hStops (ran_exchanges answer _ _)

end Chain.Search

end SnapshotCatalog
