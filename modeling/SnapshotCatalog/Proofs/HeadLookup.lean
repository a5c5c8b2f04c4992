import SnapshotCatalog.Proofs.ChainIntegrity
import SnapshotCatalog.Proofs.Timeline
/-!
Looking for the newest version while others publish. The hint may say anything and versions may
appear between any two probes, so what is found need not be the newest version when the search ends;
but it was the newest at some instant while the search went on, the one of its last probe.
-/
namespace SnapshotCatalog

open Storage (Memory)

/-- The roots in a store are those of the versions up to the newest one. -/
def Site.HasHead (site : Site) (m : Memory) (newest : Version) : Prop :=
  ∀ path, RootPath.isRootPath path = true →
    (m.contains (site.resolve path) = true ↔ ∃ v ≤ newest, path = RootPath.ofVersion v)

/-- In the history of a store the roots are at every instant those of the versions up to the newest,
and none is lost from one instant to the next. -/
structure Site.Ascends (site : Site) (store : Nat → Memory) : Prop where
  whole : ∀ now, site.HasNoRoot (store now) ∨ ∃ newest, site.HasHead (store now) newest
  kept : ∀ now path, RootPath.isRootPath path = true →
    (store now).contains (site.resolve path) = true →
      (store (now + 1)).contains (site.resolve path) = true

namespace Site

variable {site : Site} {m : Memory} {newest v : Version}

theorem HasHead.contains_iff (h : site.HasHead m newest) (v : Version) :
    m.contains (site.resolve (RootPath.ofVersion v)) = true ↔ v ≤ newest := by
  rw [h _ (RootPath.isRootPath_ofVersion v)]
  constructor
  · rintro ⟨w, hw, hSame⟩
    rwa [RootPath.ofVersion_injective hSame]
  · exact fun hv => ⟨v, hv, rfl⟩

/-- A stored version is the newest one when the version after it is absent or cannot be. -/
theorem hasHead_of_stored (hWhole : site.HasNoRoot m ∨ ∃ newest, site.HasHead m newest)
    (hStored : m.contains (site.resolve (RootPath.ofVersion v)) = true)
    (hNext : v.toNat + 1 = UInt64.size ∨
      m.contains (site.resolve (RootPath.ofVersion (v + 1))) = false) : site.HasHead m v := by
  rcases hWhole with hNone | ⟨newest, hHead⟩
  · rw [hNone _ (RootPath.isRootPath_ofVersion v)] at hStored
    cases hStored
  · have hBelow := (hHead.contains_iff v).mp hStored
    rw [UInt64.le_iff_toNat_le] at hBelow
    have hSame : newest = v := by
      rw [← UInt64.toNat_inj]
      have hBound : newest.toNat < UInt64.size := newest.toNat_lt
      rcases hNext with hLast | hAbsent
      · omega
      · by_contra hOther
        have hMore : v.toNat + 1 ≠ UInt64.size := by omega
        have hAbove : v + 1 ≤ newest := by
          rw [UInt64.le_iff_toNat_le, UInt64.toNat_add_one hMore]
          omega
        rw [(hHead.contains_iff (v + 1)).mpr hAbove] at hAbsent
        cases hAbsent
    exact hSame ▸ hHead

/-- The hint does not matter to where the head is. -/
theorem HasHead.insert_hint (h : site.HasHead m newest) (blob : Storage.Blob) :
    site.HasHead (m.insert (site.resolve Hint.path) blob) newest := by
  intro path hRoot
  obtain ⟨v, rfl⟩ := (RootPath.isRootPath_iff_exists path).mp hRoot
  rw [← h _ hRoot, TextMap.contains, TextMap.contains,
    m.get?_insert_of_ne (site.resolve_ne_hint (RootPath.ofVersion_ne_hint v))]

namespace Ascends

variable {store : Nat → Memory} (h : site.Ascends store)

include h

theorem kept_until {now later : Nat} (hLater : now ≤ later)
    (hStored : (store now).contains (site.resolve (RootPath.ofVersion v)) = true) :
    (store later).contains (site.resolve (RootPath.ofVersion v)) = true := by
  induction hLater with
  | refl => exact hStored
  | step _ ih => exact h.kept _ _ (RootPath.isRootPath_ofVersion v) ih

/-- Waiting between any two instants makes no difference. -/
theorem halved : site.Ascends fun now => store (now / 2) := by
  refine ⟨fun now => h.whole (now / 2), fun now path hRoot hStored => ?_⟩
  obtain hSame | hNext : (now + 1) / 2 = now / 2 ∨ (now + 1) / 2 = now / 2 + 1 := by omega
  · rwa [hSame]
  · rw [hNext]
    exact h.kept _ path hRoot hStored

/-- Without the root of version 0 there is no root. -/
theorem hasNoRoot {now : Nat}
    (hAbsent : (store now).contains (site.resolve (RootPath.ofVersion 0)) = false) :
    site.HasNoRoot (store now) := by
  rcases h.whole now with hNone | ⟨newest, hHead⟩
  · exact hNone
  · have hStored := (hHead.contains_iff 0).mpr UInt64.zero_le
    rw [hAbsent] at hStored
    cases hStored

end Ascends

end Site

/-! ### Probes -/

section Probes

open Program Chain

variable {site : Site} {store : Nat → Memory} {start finish : Nat}

/-- A probe tells whether the root was stored at some instant, unless it fails. -/
theorem Chain.runsDuring_hasRoot {v : Version} {outcome : Except Error Bool}
    (h : (hasRoot site v).RunsDuring store start finish outcome) :
    (∃ now, start ≤ now ∧ now ≤ finish ∧
      outcome = .ok ((store now).contains (site.resolve (RootPath.ofVersion v)))) ∨
    Faulted outcome := by
  have hCall : hasRoot site v =
      (call (.head (site.resolve (RootPath.ofVersion v)))).bind fun found => .done found.isSome := by
    rw [hasRoot, Site.contains, Site.head, site.key_root]
    rfl
  rw [hCall] at h
  rcases h.of_bind with ⟨found, middle, hFound, hRest⟩ | ⟨e, rfl, hFailed⟩
  · rcases hFound.of_call with ⟨now, hStart, hMiddle, hAnswer⟩ | hFault
    · refine .inl ⟨now, hStart, Nat.le_trans (Nat.le_of_lt hMiddle) hRest.le, ?_⟩
      rw [hRest.eq_ok_of_done, Except.ok.inj hAnswer, Option.isSome_map, TextMap.contains]
    · exact absurd hFault not_faulted_ok
  · rcases hFailed.of_call with ⟨_, -, -, hNever⟩ | hFault
    · cases hNever
    · exact .inr hFault.of_error

/-- Nothing but the answer of a request comes between a record and what follows it. -/
theorem runsDuring_record_bind {α : Type} {measurement : Measurement} {next : Program α}
    {outcome : Except Error α}
    (h : ((record measurement).bind fun _ => next).RunsDuring store start finish outcome) :
    ∃ later, start ≤ later ∧ next.RunsDuring store later finish outcome := by
  cases h with
  | answer hNow _ hRest => exact ⟨_, Nat.le_succ_of_le hNow, hRest⟩

/-- Reading the hint ends well, whatever is there. -/
theorem Hint.exists_of_runsDuring {outcome : Except Error Version}
    (h : (Hint.read site).RunsDuring store start finish outcome) : ∃ v, outcome = .ok v := by
  have hFallback {reason : FallbackReason} {start : Nat}
      (h : (Hint.fallback reason).RunsDuring store start finish outcome) : outcome = .ok 0 := by
    obtain ⟨_, -, hRest⟩ := runsDuring_record_bind h
    exact hRest.eq_ok_of_done
  rcases RunsDuring.of_bind h with ⟨result, middle, -, hRest⟩ | ⟨e, rfl, hAttempt⟩
  · cases result with
    | error e => exact ⟨0, hFallback hRest⟩
    | ok blob =>
        dsimp only at hRest
        split at hRest
        · next version _ => exact ⟨version, hRest.eq_ok_of_done⟩
        · exact ⟨0, hFallback hRest⟩
  · obtain ⟨_, hNever, -⟩ := hAttempt.of_attempt
    cases hNever

/-- A root that was read knows where it was read. -/
theorem Chain.location_of_runsDuring {v : Version} {r : Root}
    (h : (readRoot site v).RunsDuring store start finish (.ok r)) :
    r.location = some (.ofVersion v) := by
  rw [readRoot_eq] at h
  rcases h.of_bind with ⟨blob, middle, -, hParse⟩ | ⟨_, hNever, -⟩
  · cases hRoot : parseRoot (.ofVersion v) blob with
    | ok found =>
        rw [hRoot] at hParse
        obtain ⟨_, -, hFound⟩ := bind_eq_ok.mp hRoot
        cases hFound
        rw [Except.ok.inj hParse.eq_ok_of_done]
    | error e =>
        rw [hRoot] at hParse
        cases hParse.eq_error_of_fail
  · cases hNever

/-- Whatever the clock says, a transaction begins at the root it was given. -/
theorem Lakehouse.exists_start_of_runsDuring {root : Root} {isolation : IsolationLevel}
    {outcome : Except Error Transaction}
    (h : (Lakehouse.beginAt root isolation).RunsDuring store start finish outcome) :
    ∃ id time, outcome = .ok (.start id time isolation root) := by
  cases h with
  | answer _ _ hRest =>
      cases hRest with
      | answer _ _ hRest => exact ⟨_, _, hRest.eq_ok_of_done⟩

end Probes

/-! ### The search -/

namespace Site.Ascends

open Program Chain

variable {site : Site} {store : Nat → Memory} {start finish : Nat} (h : site.Ascends store)

include h

/-- A climb from a stored version ends at one that was the newest while it went on: the probe that
found nothing above it was made when the version itself was there already. -/
theorem of_climb {left probes : Nat} {v : Version} {outcome : Except Error (Version × Nat)}
    (hLeft : v.toNat + left + 1 = UInt64.size)
    (hStored : (store start).contains (site.resolve (RootPath.ofVersion v)) = true)
    (hRuns : (climb site v probes left).RunsDuring store start finish outcome) :
    (∃ newest spent now, outcome = .ok (newest, spent) ∧ start ≤ now ∧ now ≤ finish ∧
      site.HasHead (store now) newest) ∨ Faulted outcome := by
  induction left generalizing v probes start with
  | zero =>
      exact .inl ⟨v, probes, start, hRuns.eq_ok_of_done, Nat.le_refl _, hRuns.le,
        site.hasHead_of_stored (h.whole start) hStored (.inl hLeft)⟩
  | succ left ih =>
      have hNext : (v + 1).toNat = v.toNat + 1 := UInt64.toNat_add_one (by omega)
      rcases hRuns.of_bind with ⟨found, middle, hProbe, hRest⟩ | ⟨e, rfl, hProbe⟩
      · rcases runsDuring_hasRoot hProbe with ⟨now, hStart, hMiddle, hFound⟩ | hFault
        · cases hContains : (store now).contains (site.resolve (RootPath.ofVersion (v + 1))) with
          | true =>
              rw [Except.ok.inj hFound, hContains, if_pos rfl] at hRest
              rcases ih (by rw [hNext]; omega) (h.kept_until hMiddle hContains) hRest with
                ⟨newest, spent, later, hOutcome, hLater, hFinish, hHead⟩ | hFault
              · exact .inl ⟨newest, spent, later, hOutcome, by omega, hFinish, hHead⟩
              · exact .inr hFault
          | false =>
              rw [Except.ok.inj hFound, hContains, if_neg Bool.false_ne_true] at hRest
              exact .inl ⟨v, _, now, hRest.eq_ok_of_done, hStart, Nat.le_trans hMiddle hRest.le,
                site.hasHead_of_stored (h.whole now) (h.kept_until hStart hStored) (.inr hContains)⟩
        · exact absurd hFault not_faulted_ok
      · rcases runsDuring_hasRoot hProbe with ⟨_, -, -, hNever⟩ | hFault
        · cases hNever
        · exact .inr hFault.of_error

end Site.Ascends

/-- What a search for the newest version may tell: a version that was the newest at some instant of
it, that there was none at some instant of it, or that a call failed. -/
inductive Chain.Tells (site : Site) (store : Nat → Memory) (start finish : Nat) :
    Except Error Version → Prop
  | newest {v : Version} {now : Nat} (hStart : start ≤ now) (hFinish : now ≤ finish)
      (hHead : site.HasHead (store now) v) : Tells site store start finish (.ok v)
  | none {now : Nat} (hStart : start ≤ now) (hFinish : now ≤ finish)
      (hNone : site.HasNoRoot (store now)) :
      Tells site store start finish (.error (.objectNotFound .uninitialized))
  | fault {outcome : Except Error Version} (h : Faulted outcome) :
      Tells site store start finish outcome

theorem Chain.Tells.from_earlier {site : Site} {store : Nat → Memory} {earlier start finish : Nat}
    {outcome : Except Error Version} (h : Tells site store start finish outcome)
    (hEarlier : earlier ≤ start) : Tells site store earlier finish outcome := by
  cases h with
  | newest hStart hFinish hHead => exact .newest (Nat.le_trans hEarlier hStart) hFinish hHead
  | none hStart hFinish hNone => exact .none (Nat.le_trans hEarlier hStart) hFinish hNone
  | fault h => exact .fault h

namespace Site.Ascends

open Program Chain

variable {site : Site} {store : Nat → Memory} {start finish : Nat}
  {outcome : Except Error Version} (h : site.Ascends store)

include h

theorem tells_climbFrom {v : Version} {probes : Nat}
    (hStored : (store start).contains (site.resolve (RootPath.ofVersion v)) = true)
    (hRuns : (climbFrom site v probes).RunsDuring store start finish outcome) :
    Tells site store start finish outcome := by
  have hBound : v.toNat < UInt64.size := v.toNat_lt
  have hLeft : v.toNat + versionsAfter v + 1 = UInt64.size := by
    rw [versionsAfter]
    omega
  rcases hRuns.of_bind with ⟨reached, middle, hClimb, hRest⟩ | ⟨e, rfl, hClimb⟩
  · rcases h.of_climb hLeft hStored hClimb with
      ⟨newest, spent, now, hReached, hStart, hMiddle, hHead⟩ | hFault
    · cases hReached
      obtain ⟨_, -, hDone⟩ := runsDuring_record_bind hRest
      rw [hDone.eq_ok_of_done]
      exact .newest hStart (Nat.le_trans hMiddle hRest.le) hHead
    · exact absurd hFault not_faulted_ok
  · rcases h.of_climb hLeft hStored hClimb with ⟨_, _, _, hNever, -⟩ | hFault
    · cases hNever
    · exact .fault hFault.of_error

omit h in
theorem tells_notInitialized {now middle probes : Nat} (hNone : site.HasNoRoot (store now))
    (hStart : start ≤ now) (hMiddle : now ≤ middle)
    (hRuns : (notInitialized probes : Program Version).RunsDuring store middle finish outcome) :
    Tells site store start finish outcome := by
  obtain ⟨_, -, hRest⟩ := runsDuring_record_bind hRuns
  rw [hRest.eq_error_of_fail]
  exact .none hStart (Nat.le_trans hMiddle hRuns.le) hNone

omit h in
/-- A search that begins with a probe goes on as the probe finds. -/
theorem tells_probe {v : Version} {found absent : Program Version}
    (hFound : ∀ middle, (store middle).contains (site.resolve (RootPath.ofVersion v)) = true →
      found.RunsDuring store middle finish outcome → Tells site store middle finish outcome)
    (hAbsent : ∀ now middle,
      (store now).contains (site.resolve (RootPath.ofVersion v)) = false →
      start ≤ now → now ≤ middle → absent.RunsDuring store middle finish outcome →
        Tells site store start finish outcome)
    (hRuns : ((hasRoot site v).bind fun stored => if stored = true then found else absent).RunsDuring
      store start finish outcome) :
    Tells site store start finish outcome := by
  rcases hRuns.of_bind with ⟨stored, middle, hProbe, hRest⟩ | ⟨e, rfl, hProbe⟩
  · rcases runsDuring_hasRoot hProbe with ⟨now, hStart, hMiddle, hStored⟩ | hFault
    · cases hContains : (store now).contains (site.resolve (RootPath.ofVersion v)) with
      | true =>
          rw [Except.ok.inj hStored, hContains, if_pos rfl] at hRest
          exact (hFound now hContains (hRest.from_earlier hMiddle)).from_earlier hStart
      | false =>
          rw [Except.ok.inj hStored, hContains, if_neg Bool.false_ne_true] at hRest
          exact hAbsent now middle hContains hStart hMiddle hRest
    · exact absurd hFault not_faulted_ok
  · rcases runsDuring_hasRoot hProbe with ⟨_, -, -, hNever⟩ | hFault
    · cases hNever
    · exact .fault hFault.of_error

theorem tells_latestFrom {hint : Version}
    (hRuns : (latestFrom site hint).RunsDuring store start finish outcome) :
    Tells site store start finish outcome := by
  refine tells_probe (fun _ => h.tells_climbFrom) (fun now middle hAbsent hStart hMiddle hRest => ?_)
    hRuns
  split at hRest
  · next hZero =>
    subst hZero
    exact tells_notInitialized (h.hasNoRoot hAbsent) hStart hMiddle hRest
  · -- The hint is stale, so the search starts again at version 0.
    obtain ⟨again, hLater, hAgain⟩ := runsDuring_record_bind hRest
    have hTells : Tells site store again finish outcome :=
      tells_probe (fun _ => h.tells_climbFrom)
        (fun _ _ hAbsent hStart hMiddle => tells_notInitialized (h.hasNoRoot hAbsent) hStart hMiddle)
        hAgain
    exact hTells.from_earlier (by omega)

/-- Whatever the hint says when it is read, and whatever is published meanwhile, the search for the
newest version tells what was true at some instant of it. -/
theorem tells_latestVersion (hRuns : (latestVersion site).RunsDuring store start finish outcome) :
    Tells site store start finish outcome := by
  rcases hRuns.of_bind with ⟨hint, middle, hRead, hSearch⟩ | ⟨e, rfl, hRead⟩
  · exact (h.tells_latestFrom hSearch).from_earlier hRead.le
  · obtain ⟨_, hNever⟩ := Hint.exists_of_runsDuring hRead
    cases hNever

/-- The search for the newest version is linearizable: a version that it returns was the newest at
some instant between its start and its end, and when it finds no lakehouse, there was none at some
instant in between. Every transaction begins at such a version. -/
theorem latestVersion_linearizable (start finish : Nat) :
    (∀ v, (latestVersion site).RunsDuring store start finish (.ok v) →
      ∃ now, start ≤ now ∧ now ≤ finish ∧ site.HasHead (store now) v) ∧
    ((latestVersion site).RunsDuring store start finish
        (.error (.objectNotFound .uninitialized)) →
      ∃ now, start ≤ now ∧ now ≤ finish ∧ site.HasNoRoot (store now)) ∧
    ∀ isolation t, (Lakehouse.begin site isolation).RunsDuring store start finish (.ok t) →
      ∃ v now, t.beginning.location = some (.ofVersion v) ∧ start ≤ now ∧ now ≤ finish ∧
        site.HasHead (store now) v := by
  have hLookup {v : Version} {finish : Nat}
      (hRuns : (latestVersion site).RunsDuring store start finish (.ok v)) :
      ∃ now, start ≤ now ∧ now ≤ finish ∧ site.HasHead (store now) v := by
    cases h.tells_latestVersion hRuns with
    | newest hStart hFinish hHead => exact ⟨_, hStart, hFinish, hHead⟩
    | fault hFault => exact absurd hFault not_faulted_ok
  refine ⟨fun v hRuns => hLookup hRuns, fun hRuns => ?_, fun isolation t hRuns => ?_⟩
  · cases h.tells_latestVersion hRuns with
    | none hStart hFinish hNone => exact ⟨_, hStart, hFinish, hNone⟩
    | fault hFault =>
        obtain ⟨_, ⟨⟩, hNever⟩ := hFault
        cases hNever
  · rcases hRuns.of_bind with ⟨root, middle, hRoot, hBegin⟩ | ⟨_, hNever, -⟩
    · rcases hRoot.of_bind with ⟨v, lookedUp, hLatest, hRead⟩ | ⟨_, hNever, -⟩
      · obtain ⟨now, hStart, hFinish, hHead⟩ := hLookup hLatest
        have hLookedUp := hRead.le
        have hBegun := hBegin.le
        obtain ⟨id, time, hNew⟩ := Lakehouse.exists_start_of_runsDuring hBegin
        obtain rfl := Except.ok.inj hNew
        exact ⟨v, now, location_of_runsDuring hRead, hStart, by omega, hHead⟩
      · cases hNever
    · cases hNever

end Site.Ascends

/-! ### Histories of clients -/

namespace System

variable {site : Site} {s : System} {published : List Publication}

theorem Sound.whole (hSound : s.Sound site published) :
    site.HasNoRoot s.store ∨ ∃ newest, site.HasHead s.store newest := by
  cases hPublished : published with
  | nil => exact .inl (hSound.records.hasNoRoot hPublished)
  | cons first rest =>
      have hFirst : published[0]? = some first := by rw [hPublished]; rfl
      have hLength : published.length = rest.length + 1 := by rw [hPublished]; rfl
      have hCount := hSound.records.countable
      have hTop : (UInt64.ofNat rest.length).toNat = rest.length :=
        UInt64.toNat_ofNat_of_lt' (by omega)
      exact .inr ⟨_, (hSound.records.hasChain hFirst (by rw [hTop, hLength])).stored⟩

/-- Whatever clients do, the roots are at every instant those of the versions up to the newest. -/
theorem Reachable.ascends (hReach : Reachable site s) {store : Nat → Memory}
    (hUnfolds : s.Unfolds site store) : site.Ascends store := by
  obtain ⟨published, hSound⟩ := hReach.sound
  obtain ⟨hGrows, hAt⟩ := hSound.unfolds hUnfolds
  refine ⟨fun now => ?_, fun now path hRoot hStored => ?_⟩
  · obtain ⟨s', _, hNow, -, hStore⟩ := hAt now
    exact hStore ▸ hNow.whole
  · obtain ⟨v, rfl⟩ := (RootPath.isRootPath_iff_exists path).mp hRoot
    obtain ⟨blob, hGet⟩ := Option.isSome_iff_exists.mp hStored
    rw [TextMap.contains,
      hGrows now _ _ (site.resolve_ne_hint (RootPath.ofVersion_ne_hint v)) hGet]
    rfl

/-- When a client that looked for the newest version among others has come to the end of its search,
what it found was the newest version at some instant since it started. -/
theorem Reachable.hasHead_of_latestVersion {states : Nat → System}
    (hReach : Reachable site (states 0))
    (hSteps : ∀ now, Step site (states now) (states (now + 1)) ∨ states (now + 1) = states now)
    {client start length : Nat} {last : Run} {v : Version}
    (hBusy : ∀ later, later ≤ length → (states (start + later)).runs client ≠ none)
    (hStart : (states start).runs client = some (.start site .latestVersion))
    (hLast : (states (start + length)).runs client = some last)
    (hOutcome : last.rest.outcome? = some (.ok (.version v))) :
    ∃ now, start ≤ now ∧ now ≤ start + length ∧ site.HasHead (states now).store v := by
  have hUnfolds : (states 0).Unfolds site fun now => (states now).store := by
    refine ⟨states, rfl, fun now => ?_, fun _ => rfl⟩
    rcases hSteps now with hStep | hSame
    · exact .single hStep
    · rw [hSame]
      exact .refl
  have hRuns := runsDuring_of_steps hSteps hBusy hStart hLast hOutcome
  rcases Program.RunsDuring.of_bind hRuns with ⟨w, middle, hLatest, hDone⟩ | ⟨_, hNever, -⟩
  · cases hDone.eq_ok_of_done
    cases (hReach.ascends hUnfolds).tells_latestVersion hLatest with
    | newest hStart hFinish hHead =>
        exact ⟨_, hStart, Nat.le_trans hFinish hDone.le, hHead⟩
    | fault hFault => exact absurd hFault not_faulted_ok
  · cases hNever

end System

/-! ### A chain that grows -/

namespace Session

/-- The desk once the lakehouse is created. -/
def afterCreation : Desk :=
  (run .top (Desk.answer .top (.counting 5) fun _ => .none) (sample.take 1) [] .empty).2

/-- There is no lakehouse, then there is one whose hint names a version that does not exist, then a
transaction is committed. -/
def growth (now : Nat) : Memory :=
  if now < 4 then .empty
  else if now < 8 then
    afterCreation.store.insert (Site.top.resolve Hint.path) (.bytes (Text.bytes "9"))
  else afterSample.store

theorem hasHead_afterCreation : Site.top.HasHead afterCreation.store 0 := by
  obtain ⟨s, hReach, hStore⟩ := exists_reachable .top (.counting 5) (sample.take 1)
    fun op hMem => fits_sample op (List.mem_of_mem_take hMem)
  rw [← afterCreation] at hStore
  obtain ⟨published, hSound⟩ := hReach.sound
  have hRoots : afterCreation.store.contains (Site.top.resolve (RootPath.ofVersion 0)) = true ∧
      afterCreation.store.contains (Site.top.resolve (RootPath.ofVersion (0 + 1))) = false := by
    decide +kernel
  exact Site.hasHead_of_stored (hStore ▸ hSound.whole) hRoots.1 (.inr hRoots.2)

theorem hasHead_afterSample : Site.top.HasHead afterSample.store 1 := by
  obtain ⟨s, hReach, hStore⟩ := exists_reachable_afterSample
  obtain ⟨published, hSound⟩ := hReach.sound
  obtain ⟨hStored, hNext⟩ := roots_afterSample
  exact Site.hasHead_of_stored (hStore ▸ hSound.whole) hStored (.inr hNext)

theorem ascends_growth : Site.top.Ascends growth := by
  have hEmpty : Site.top.HasNoRoot .empty := fun _ _ => rfl
  have hStale := hasHead_afterCreation.insert_hint (.bytes (Text.bytes "9"))
  have hLast := hasHead_afterSample
  refine ⟨fun now => ?_, fun now path hRoot hStored => ?_⟩
  · unfold growth
    split
    · exact .inl hEmpty
    · split
      · exact .inr ⟨0, hStale⟩
      · exact .inr ⟨1, hLast⟩
  · unfold growth at hStored ⊢
    by_cases hNone : now < 4
    · rw [if_pos hNone] at hStored
      cases hStored
    · rw [if_neg hNone] at hStored
      rw [if_neg (by omega)]
      by_cases hEarly : now < 8
      · rw [if_pos hEarly] at hStored
        split
        · exact hStored
        · obtain ⟨v, hv, rfl⟩ := (hStale path hRoot).mp hStored
          exact (hLast _ hRoot).mpr ⟨v, UInt64.le_trans hv (by decide), rfl⟩
      · rw [if_neg hEarly] at hStored
        rwa [if_neg (by omega)]

/-- The search in this history, from its beginning and from the creation on. -/
theorem run_growth :
    (match ((Chain.latestVersion .top).run (Program.watch growth) 0).1 with
      | .error (.objectNotFound .uninitialized) => true
      | _ => false) = true ∧
    ((Chain.latestVersion .top).run (Program.watch growth) 4).1.toOption = some 1 ∧
    ((Lakehouse.begin .top .snapshot).run (Program.watch growth) 4).1.toOption.isSome = true := by
  decide +kernel

end Session

/-- The search in a history in which the hint is wrong and the chain grows: before the creation it
finds no lakehouse, and after it a version that was published while it went on. -/
theorem Site.Ascends.latestVersion_linearizable_duringGrowth :
    (∃ now finish, now ≤ finish ∧ (Chain.latestVersion .top).RunsDuring
        (fun now => Session.growth (now / 2)) 0 finish (.error (.objectNotFound .uninitialized)) ∧
      Site.top.HasNoRoot (Session.growth (now / 2))) ∧
    (∃ now finish, 8 ≤ now ∧ now ≤ finish ∧ (Chain.latestVersion .top).RunsDuring
        (fun now => Session.growth (now / 2)) 8 finish (.ok 1) ∧
      Site.top.HasHead (Session.growth (now / 2)) 1) ∧
    ∃ t v now finish, 8 ≤ now ∧ now ≤ finish ∧ (Lakehouse.begin .top .snapshot).RunsDuring
        (fun now => Session.growth (now / 2)) 8 finish (.ok t) ∧
      t.beginning.location = some (.ofVersion v) ∧
      Site.top.HasHead (Session.growth (now / 2)) v := by
  have hChain := coversChain_quiet .top
  have hHint : Request.Quiet (.call (.get (Site.top.resolve Hint.path))) := rfl
  have hLatest := Program.runsDuring_watch Session.growth (Chain.asks_latestVersion hChain hHint)
  have hBegin : (Lakehouse.begin .top .snapshot).Asks Request.Quiet :=
    Program.Asks.bind (Chain.asks_latestRoot hChain hHint) fun root =>
      Lakehouse.asks_beginAt trivial trivial root .snapshot
  obtain ⟨hNone, hSome, hBegun⟩ := Session.run_growth
  refine ⟨?_, ?_, ?_⟩
  · have hRuns := hLatest 0
    generalize (Chain.latestVersion .top).run (Program.watch Session.growth) 0 = ended at hRuns hNone
    split at hNone
    · next hOutcome =>
      rw [hOutcome] at hRuns
      obtain ⟨now, -, hFinish, hNoRoot⟩ :=
        (Session.ascends_growth.halved.latestVersion_linearizable _ _).2.1 hRuns
      exact ⟨now, _, hFinish, hRuns, hNoRoot⟩
    · cases hNone
  · have hRuns := hLatest 4
    generalize (Chain.latestVersion .top).run (Program.watch Session.growth) 4 = ended at hRuns hSome
    obtain ⟨outcome, later⟩ := ended
    cases outcome with
    | error e => cases hSome
    | ok v =>
        cases hSome
        obtain ⟨now, hStart, hFinish, hHead⟩ :=
          (Session.ascends_growth.halved.latestVersion_linearizable _ _).1 1 hRuns
        exact ⟨now, _, hStart, hFinish, hRuns, hHead⟩
  · have hRuns := Program.runsDuring_watch Session.growth hBegin 4
    generalize (Lakehouse.begin .top .snapshot).run (Program.watch Session.growth) 4 = ended
      at hRuns hBegun
    obtain ⟨outcome, later⟩ := ended
    cases outcome with
    | error e => cases hBegun
    | ok t =>
        obtain ⟨v, now, hLocation, hStart, hFinish, hHead⟩ :=
          (Session.ascends_growth.halved.latestVersion_linearizable _ _).2.2 .snapshot t hRuns
        exact ⟨t, v, now, _, hStart, hFinish, hRuns, hLocation, hHead⟩

end SnapshotCatalog
