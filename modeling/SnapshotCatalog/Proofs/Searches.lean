import SnapshotCatalog.Proofs.CreationTimes
import SnapshotCatalog.Proofs.RootReads
/-!
Searches on a chain that anyone may have tampered with. A search goes down from the newest version
along whole links as long as what it reads leaves it open. It ends at one version: with the verdict on
the root there, at a root that cannot be read, at a broken link or at the beginning of the chain. So
what is found for a version or for a time depends on nothing below the place where the search ends.
-/
namespace SnapshotCatalog

open Storage (Memory)

variable {site : Site} {m : Memory} {v top : Version} {outcome : Except Error Root}

/-- The root of a version is stored and cannot be read, for this reason. -/
def Site.CorruptedAt (site : Site) (m : Memory) (v : Version) (corruption : Corruption) : Prop :=
  ∃ blob, m.get? (site.resolve (RootPath.ofVersion v)) = some blob ∧
    Chain.parseRoot (.ofVersion v) blob = .error (.corrupted (RootPath.ofVersion v) corruption)

/-- What is stored for a version can be read, or it is corrupted. -/
theorem Site.HasRootAt.readable_or_corrupted (h : site.HasRootAt m v) :
    (∃ r, site.rootAt? m v = some r) ∨ ∃ corruption, site.CorruptedAt m v corruption := by
  obtain ⟨blob, hGet⟩ := Site.hasRootAt_iff_exists.mp h
  cases hParse : Chain.parseRoot (.ofVersion v) blob with
  | ok r => exact .inl ⟨r, Site.rootAt?_of_parse hGet hParse⟩
  | error e =>
      obtain ⟨corruption, rfl⟩ := Chain.parseRoot_eq_error hParse
      exact .inr ⟨corruption, blob, hGet, hParse⟩

theorem Site.CorruptedAt.rootAt? {corruption : Corruption} (h : site.CorruptedAt m v corruption) :
    site.rootAt? m v = none := by
  obtain ⟨blob, hGet, hParse⟩ := h
  rw [Site.rootAt?, hGet, Option.bind_some, hParse]
  rfl

namespace Chain

namespace Search

variable {s : Search}

/-- A search goes on below a version: its root names the one before it and leaves the search open. -/
structure Passes (s : Search) (site : Site) (m : Memory) (v : Version) : Prop where
  later : v ≠ 0
  linked : site.Linked m v
  undecided : ∀ r, site.rootAt? m v = some r → s.judge (.ofVersion v) r = none

/-- How a search ends at a version. -/
inductive EndsAt (s : Search) (site : Site) (m : Memory) (v : Version) : Except Error Root → Prop
  | corrupted {corruption : Corruption} (h : site.CorruptedAt m v corruption) :
      EndsAt s site m v (.error (.corrupted (RootPath.ofVersion v) corruption))
  | judged {r : Root} {result : Except Error Root} (hRoot : site.rootAt? m v = some r)
      (hJudge : s.judge (.ofVersion v) r = some result) : EndsAt s site m v result
  | broken {r : Root} {link : BrokenLink} (hRoot : site.rootAt? m v = some r)
      (hJudge : s.judge (.ofVersion v) r = none) (hBreaks : Breaks site m v r.previousRootPath link) :
      EndsAt s site m v (.error (s.broken (RootPath.ofVersion v) link))
  | exhausted {r : Root} (hFirst : v = 0) (hRoot : site.rootAt? m v = some r)
      (hJudge : s.judge (.ofVersion v) r = none) (hPrevious : r.previousRootPath = none) :
      EndsAt s site m v (.error s.exhausted)

/-- A search that comes to a version goes down until it ends. -/
inductive Descends (s : Search) (site : Site) (m : Memory) : Version → Except Error Root → Prop
  | ends {v : Version} {outcome : Except Error Root} (h : s.EndsAt site m v outcome) :
      Descends s site m v outcome
  | passes {v : Version} {outcome : Except Error Root} (h : s.Passes site m v)
      (hRest : Descends s site m (v - 1) outcome) : Descends s site m v outcome

/-- From every stored version a search comes to an end, because each link leads to an earlier
version. -/
theorem exists_descends (s : Search) (h : site.HasRootAt m v) : ∃ outcome, s.Descends site m v outcome := by
  obtain ⟨n, hn⟩ : ∃ n, v.toNat = n := ⟨_, rfl⟩
  induction n using Nat.strongRecOn generalizing v with
  | ind n ih =>
      rcases h.readable_or_corrupted with ⟨r, hRoot⟩ | ⟨corruption, hCorrupted⟩
      · cases hJudge : s.judge (.ofVersion v) r with
        | some result => exact ⟨_, .ends (.judged hRoot hJudge)⟩
        | none =>
            rcases pointer_cases site m v r.previousRootPath with
              ⟨hFirst, hNone⟩ | ⟨hLater, hPrevious, hStored⟩ | ⟨link, hBreaks⟩
            · exact ⟨_, .ends (.exhausted hFirst hRoot hJudge hNone)⟩
            · have hLess := toNat_sub_one hLater
              obtain ⟨outcome, hRest⟩ := ih (v - 1).toNat (by omega) hStored rfl
              have hPasses : s.Passes site m v := by
                refine ⟨hLater, ⟨r, hRoot, by rw [if_neg hLater, hPrevious]⟩, fun found hFound => ?_⟩
                rw [hRoot] at hFound
                cases hFound
                exact hJudge
              exact ⟨outcome, .passes hPasses hRest⟩
            · exact ⟨_, .ends (.broken hRoot hJudge hBreaks)⟩
      · exact ⟨_, .ends (.corrupted hCorrupted)⟩

theorem EndsAt.hasRootAt (h : s.EndsAt site m v outcome) : site.HasRootAt m v := by
  have hReadable {r : Root} (hRoot : site.rootAt? m v = some r) : site.HasRootAt m v := by
    obtain ⟨blob, hGet, -⟩ := Site.exists_of_rootAt? hRoot
    exact Site.hasRootAt_iff_exists.mpr ⟨blob, hGet⟩
  cases h with
  | corrupted hCorrupted =>
      obtain ⟨blob, hGet, -⟩ := hCorrupted
      exact Site.hasRootAt_iff_exists.mpr ⟨blob, hGet⟩
  | judged hRoot => exact hReadable hRoot
  | broken hRoot => exact hReadable hRoot
  | exhausted hFirst hRoot => exact hReadable hRoot

theorem Descends.hasRootAt (h : s.Descends site m v outcome) : site.HasRootAt m v := by
  cases h with
  | ends hEnds => exact hEnds.hasRootAt
  | passes hPasses hRest => exact hPasses.linked.hasRootAt

/-- A search that comes to a version that cannot be read ends there. -/
theorem Descends.of_corrupted {corruption : Corruption} (h : s.Descends site m v outcome)
    (hCorrupted : site.CorruptedAt m v corruption) :
    outcome = .error (.corrupted (RootPath.ofVersion v) corruption) := by
  have hNone := hCorrupted.rootAt?
  cases h with
  | ends hEnds =>
      cases hEnds with
      | corrupted hOther =>
          obtain ⟨blob, hGet, hParse⟩ := hCorrupted
          obtain ⟨other, hOtherGet, hOtherParse⟩ := hOther
          cases hGet.symm.trans hOtherGet
          exact hOtherParse.symm.trans hParse
      | judged hRoot => cases hNone.symm.trans hRoot
      | broken hRoot => cases hNone.symm.trans hRoot
      | exhausted hFirst hRoot => cases hNone.symm.trans hRoot
  | passes hPasses hRest =>
      obtain ⟨r, hRoot, -⟩ := hPasses.linked
      cases hNone.symm.trans hRoot

/-- A search ends at one version, and it goes on below all that are above it. -/
theorem descends_iff : s.Descends site m top outcome ↔
    ∃ v ≤ top, (∀ w, v < w → w ≤ top → s.Passes site m w) ∧ s.EndsAt site m v outcome := by
  constructor
  · intro h
    induction h with
    | @ends v outcome hEnds =>
        exact ⟨v, UInt64.le_refl v, fun w hAbove hw => absurd hw (UInt64.not_le.mpr hAbove), hEnds⟩
    | @passes v outcome hPasses hRest ih =>
        obtain ⟨u, hu, hAbove, hEnds⟩ := ih
        have hLess := toNat_sub_one hPasses.later
        have hBelow := UInt64.le_iff_toNat_le.mp hu
        refine ⟨u, UInt64.le_iff_toNat_le.mpr (by omega), fun w hw hTop => ?_, hEnds⟩
        by_cases hSame : w = v
        · exact hSame ▸ hPasses
        · exact hAbove w hw (le_sub_one hTop hSame)
  · rintro ⟨v, hTop, hAbove, hEnds⟩
    obtain ⟨n, hn⟩ : ∃ n, top.toNat - v.toNat = n := ⟨_, rfl⟩
    have hLe := UInt64.le_iff_toNat_le.mp hTop
    induction n generalizing top with
    | zero =>
        obtain rfl : v = top := UInt64.toNat_inj.mp (by omega)
        exact .ends hEnds
    | succ n ih =>
        have hPasses := hAbove top (UInt64.lt_iff_toNat_lt.mpr (by omega)) (UInt64.le_refl top)
        have hLess := toNat_sub_one hPasses.later
        refine .passes hPasses (ih (UInt64.le_iff_toNat_le.mpr (by omega)) (fun w hw hRest => ?_)
          (by omega) (by omega))
        have hBelow := UInt64.le_iff_toNat_le.mp hRest
        exact hAbove w hw (UInt64.le_iff_toNat_le.mpr (by omega))

end Search

end Chain

/-! ### The end that a run comes to -/

section Runs

open Chain

variable {σ : Type} {answer : (r : Request) → σ → r.Answer × σ} {still : σ → Prop} {s : Search}

namespace Shows

variable (h : Shows answer still site m)

include h

/-- From a root on a search ends as its way down does. -/
theorem yields_down (hDown : s.Descends site m v outcome) {r : Root}
    (hRoot : site.rootAt? m v = some r) {below : Nat} (hBelow : v.toNat ≤ below) :
    Yields answer still (s.down site below r) outcome := by
  induction hDown generalizing r below with
  | ends hEnds =>
      obtain ⟨-, -, -, hLocation⟩ := Site.exists_of_rootAt? hRoot
      cases hEnds with
      | corrupted hCorrupted => cases hCorrupted.rootAt?.symm.trans hRoot
      | judged hFound hJudge =>
          cases hFound.symm.trans hRoot
          rw [Search.down_judged hLocation hJudge]
          exact yields_ofExcept _
      | broken hFound hJudge hBreaks =>
          cases hFound.symm.trans hRoot
          rw [Search.down_open hLocation hJudge]
          exact (h.yields_readPrevious_broken hLocation hBreaks).bind (yields_fail _)
      | exhausted hFirst hFound hJudge hPrevious =>
          subst hFirst
          cases hFound.symm.trans hRoot
          rw [Search.down_open hLocation hJudge]
          exact (yields_readPrevious_start hLocation hPrevious).bind (yields_fail _)
  | @passes v outcome hPasses hRest ih =>
      obtain ⟨-, -, -, hLocation⟩ := Site.exists_of_rootAt? hRoot
      obtain ⟨found, hFound, hPrevious⟩ := hPasses.linked
      cases hFound.symm.trans hRoot
      rw [if_neg hPasses.later] at hPrevious
      obtain ⟨blob, hGet⟩ := Site.hasRootAt_iff_exists.mp hRest.hasRootAt
      have hYields := h.yields_readPrevious_link hLocation hPasses.later hPrevious hGet
      rw [Search.down_open hLocation (hPasses.undecided r hRoot)]
      cases hParse : parseRoot (.ofVersion (v - 1)) blob with
      | error e =>
          obtain ⟨corruption, rfl⟩ := parseRoot_eq_error hParse
          rw [hRest.of_corrupted ⟨blob, hGet, hParse⟩]
          rw [hParse] at hYields
          exact hYields.bind_error
      | ok before =>
          have hLess := toNat_sub_one hPasses.later
          obtain ⟨left, rfl⟩ : ∃ left, below = left + 1 := ⟨below - 1, by omega⟩
          rw [hParse] at hYields
          exact hYields.bind (ih (Site.rootAt?_of_parse hGet hParse) (by omega))

theorem yields_runFrom (hDown : s.Descends site m top outcome) :
    Yields answer still (s.runFrom site top) outcome := by
  obtain ⟨blob, hGet⟩ := Site.hasRootAt_iff_exists.mp hDown.hasRootAt
  have hYields := h.yields_readRoot hGet
  cases hParse : parseRoot (.ofVersion top) blob with
  | error e =>
      obtain ⟨corruption, rfl⟩ := parseRoot_eq_error hParse
      rw [hDown.of_corrupted ⟨blob, hGet, hParse⟩]
      rw [hParse] at hYields
      exact hYields.bind_error
  | ok head =>
      have hLocation := location_of_parseRoot hParse
      rw [hParse] at hYields
      apply hYields.bind
      rw [Search.down_of_location hLocation]
      exact h.yields_down hDown (Site.rootAt?_of_parse hGet hParse) (Nat.le_refl _)

end Shows

/-- A search ends as its way down from the newest version does, and in no other way. -/
theorem Host.run_search_iff {h : Host} {head : Version} (hStore : h.store = .ofBackend (.memory m))
    (hHead : (h.run (latestVersion site)).1 = .ok head) :
    (h.run (s.run site)).1 = outcome ↔ s.Descends site m head outcome := by
  obtain ⟨latest, hLatest⟩ := exists_yields m (asks_latestVersion (coversChain_reads site) rfl)
  obtain rfl := (hLatest h hStore).1.symm.trans hHead
  have hRun {outcome : Except Error Root} (hDown : s.Descends site m head outcome) :
      (h.run (s.run site)).1 = outcome := by
    rw [s.run_eq]
    exact (hLatest.bind ((shows site m).yields_runFrom hDown) h hStore).1
  refine ⟨fun hSame => ?_, hRun⟩
  obtain ⟨found, hDown⟩ := s.exists_descends ((shows site m).hasRootAt_of_latestVersion hStore hHead)
  exact hSame ▸ (hRun hDown).symm ▸ hDown

end Runs

/-! ### Looking for a version -/

namespace Chain

variable {head : Version}

/-- Why a version is not found from the newest one on: it is newer than that, or the way down to it is
broken or cannot be read. -/
inductive Unfound (site : Site) (m : Memory) (head v : Version) : Error → Prop
  | newer {r : Root} (hNewer : head < v) (hRoot : site.rootAt? m head = some r) :
      Unfound site m head v (noVersion v)
  | broken {w : Version} {r : Root} {link : BrokenLink} (hAbove : v < w) (hw : w ≤ head)
      (hLinked : ∀ u, w < u → u ≤ head → site.Linked m u) (hRoot : site.rootAt? m w = some r)
      (hBreaks : Breaks site m w r.previousRootPath link) :
      Unfound site m head v (.objectNotFound (.unreachable v (RootPath.ofVersion w) link))
  | corrupted {w : Version} {corruption : Corruption} (hMet : v ≤ w ∨ w = head) (hw : w ≤ head)
      (hLinked : ∀ u, w < u → u ≤ head → site.Linked m u)
      (hCorrupted : site.CorruptedAt m w corruption) :
      Unfound site m head v (.corrupted (RootPath.ofVersion w) corruption)

namespace Search

/-- A version down to which all versions but itself are later than another is not before that one,
unless it is the newest. -/
theorem le_of_all_above {w : Version} (hw : w ≤ head) (hAbove : ∀ u, w < u → u ≤ head → v < u) :
    v ≤ w ∨ w = head := by
  by_cases hSame : w = head
  · exact .inr hSame
  · have hLess := UInt64.lt_iff_toNat_lt.mp (UInt64.lt_of_le_of_ne hw hSame)
    have hSize := head.toNat_lt
    have hNext : (w + 1).toNat = w.toNat + 1 := UInt64.toNat_add_one (by simp only [UInt64.size]; omega)
    have hLater := hAbove (w + 1) (UInt64.lt_iff_toNat_lt.mpr (by omega))
      (UInt64.le_iff_toNat_le.mpr (by omega))
    rw [UInt64.lt_iff_toNat_lt] at hLater
    exact .inl (UInt64.le_iff_toNat_le.mpr (by omega))

theorem passes_forVersion {w : Version} :
    (forVersion v).Passes site m w ↔ v < w ∧ site.Linked m w := by
  constructor
  · intro h
    obtain ⟨r, hRoot, -⟩ := h.linked
    exact ⟨judge_forVersion_eq_none.mp (h.undecided r hRoot), h.linked⟩
  · rintro ⟨hLater, hLinked⟩
    refine ⟨?_, hLinked, fun r _ => judge_forVersion_eq_none.mpr hLater⟩
    rintro rfl
    exact UInt64.not_lt.mpr UInt64.zero_le hLater

/-- A search for a version finds what can be read at the end of a whole chain down to it. -/
theorem descends_forVersion_ok {r : Root} : (forVersion v).Descends site m head (.ok r) ↔
    v ≤ head ∧ (∀ w, v < w → w ≤ head → site.Linked m w) ∧ site.rootAt? m v = some r := by
  rw [descends_iff]
  constructor
  · rintro ⟨u, hu, hAbove, hEnds⟩
    cases hEnds with
    | judged hRoot hJudge =>
        obtain ⟨rfl, rfl⟩ := judge_forVersion_eq_ok.mp hJudge
        exact ⟨hu, fun w hw hTop => (hAbove w hw hTop).linked, hRoot⟩
  · rintro ⟨hv, hLinked, hRoot⟩
    refine ⟨v, hv, fun w hw hTop => passes_forVersion.mpr ⟨hw, hLinked w hw hTop⟩, ?_⟩
    exact .judged hRoot (judge_forVersion_eq_ok.mpr ⟨rfl, rfl⟩)

/-- It fails exactly for the reasons why a version may not be found. -/
theorem descends_forVersion_error {e : Error} :
    (forVersion v).Descends site m head (.error e) ↔ Unfound site m head v e := by
  rw [descends_iff]
  constructor
  · rintro ⟨u, hu, hAbove, hEnds⟩
    have hMet : v ≤ u ∨ u = head := le_of_all_above hu fun w hw hTop =>
      (passes_forVersion.mp (hAbove w hw hTop)).1
    have hLinked (w : Version) (hw : u < w) (hTop : w ≤ head) : site.Linked m w :=
      (hAbove w hw hTop).linked
    cases hEnds with
    | corrupted hCorrupted => exact .corrupted hMet hu hLinked hCorrupted
    | judged hRoot hJudge =>
        obtain ⟨hEarlier, rfl⟩ := judge_forVersion_eq_error.mp hJudge
        rcases hMet with hMet | rfl
        · exact absurd hEarlier (UInt64.not_lt.mpr hMet)
        · exact .newer hEarlier hRoot
    | broken hRoot hJudge hBreaks =>
        exact .broken (judge_forVersion_eq_none.mp hJudge) hu hLinked hRoot hBreaks
    | exhausted hFirst hRoot hJudge hPrevious =>
        subst hFirst
        exact absurd (judge_forVersion_eq_none.mp hJudge) (UInt64.not_lt.mpr UInt64.zero_le)
  · intro h
    cases h with
    | newer hNewer hRoot =>
        refine ⟨head, UInt64.le_refl head, fun w hw hTop => absurd hTop (UInt64.not_le.mpr hw), ?_⟩
        exact .judged hRoot (judge_forVersion_eq_error.mpr ⟨hNewer, rfl⟩)
    | @broken w r link hAbove hw hLinked hRoot hBreaks =>
        refine ⟨w, hw, fun u hu hTop => ?_, ?_⟩
        · exact passes_forVersion.mpr ⟨UInt64.lt_trans hAbove hu, hLinked u hu hTop⟩
        · exact .broken hRoot (judge_forVersion_eq_none.mpr hAbove) hBreaks
    | @corrupted w corruption hMet hw hLinked hCorrupted =>
        refine ⟨w, hw, fun u hu hTop => ?_, .corrupted hCorrupted⟩
        refine passes_forVersion.mpr ⟨?_, hLinked u hu hTop⟩
        rcases hMet with hMet | rfl
        · exact UInt64.lt_of_le_of_lt hMet hu
        · exact absurd hTop (UInt64.not_le.mpr hu)

end Search

end Chain

/-- Whatever is stored at root paths and as the hint, a version is found exactly if it can be read and
every version above it up to the newest is linked to the one before, and then it is what reading that
version gives. Otherwise the search says what is in its way. It reads one root after another from the
newest on, and none below the version. -/
theorem Host.rootForVersion_decides {h : Host} {head : Version}
    (hStore : h.store = .ofBackend (.memory m)) (hHead : (h.run (Chain.latestVersion site)).1 = .ok head)
    (v : Version) :
    (∀ r, (h.run (Chain.rootForVersion site v)).1 = .ok r ↔
      v ≤ head ∧ (∀ w, v < w → w ≤ head → site.Linked m w) ∧ site.rootAt? m v = some r) ∧
    (∀ r, (h.run (Chain.rootForVersion site v)).1 = .ok r →
      (h.run (Chain.readRoot site v)).1 = .ok r) ∧
    (∀ e, (h.run (Chain.rootForVersion site v)).1 = .error e ↔ Chain.Unfound site m head v e) ∧
    ∃ count ≤ head.toNat - v.toNat + 1,
      Exchange.rootReads site ((Chain.rootForVersion site v).exchanges answer h) =
        Chain.downFrom head count := by
  have hFinds (r : Root) : (h.run (Chain.rootForVersion site v)).1 = .ok r ↔
      v ≤ head ∧ (∀ w, v < w → w ≤ head → site.Linked m w) ∧ site.rootAt? m v = some r :=
    (run_search_iff hStore hHead).trans Chain.Search.descends_forVersion_ok
  refine ⟨hFinds, fun r hRun => ?_,
    fun e => (run_search_iff hStore hHead).trans Chain.Search.descends_forVersion_error,
    Chain.Search.rootReads_run (Chain.Search.stopsAt_forVersion v) hHead⟩
  obtain ⟨-, -, hRoot⟩ := (hFinds r).mp hRun
  obtain ⟨blob, hGet, hParse, -⟩ := Site.exists_of_rootAt? hRoot
  exact (((shows site m).yields_readRoot hGet) h hStore).1.trans hParse

/-- A store with three roots of which the second names no predecessor and was stamped last. -/
def Host.skewed : Memory :=
  let root (previous : Option String) (time : Millis) : Storage.Blob :=
    .node (Node.encode { Root.new "definition" with previousRootPath := previous } time)
  [(RootPath.ofVersion 0, root none 5), (RootPath.ofVersion 1, root none 9),
    (RootPath.ofVersion 2, root (some (RootPath.ofVersion 1)) 7)].foldl
    (fun m entry => m.insert entry.1 entry.2) .empty

theorem Host.latestVersion_skewed :
    ((start (.memory skewed) 0).run (Chain.latestVersion .top)).1 = .ok 2 :=
  toOption_eq_some.mp (by decide +kernel)

theorem Host.exists_rootAt_skewed : ∃ second third,
    Site.top.rootAt? skewed 1 = some second ∧ second.previousRootPath = none ∧
      second.createdAt = some 9 ∧ Site.top.rootAt? skewed 2 = some third ∧
      third.previousRootPath = some (RootPath.ofVersion 1) ∧ third.createdAt = some 7 := by
  have hSecond : (Site.top.rootAt? skewed 1).map (fun r => (r.previousRootPath, r.createdAt)) =
      some (none, some 9) := by decide +kernel
  have hThird : (Site.top.rootAt? skewed 2).map (fun r => (r.previousRootPath, r.createdAt)) =
      some (some (RootPath.ofVersion 1), some 7) := by decide +kernel
  obtain ⟨second, hRoot, hFields⟩ := Option.map_eq_some_iff.mp hSecond
  obtain ⟨third, hNext, hNextFields⟩ := Option.map_eq_some_iff.mp hThird
  obtain ⟨hPrevious, hStamp⟩ := Prod.mk.inj hFields
  obtain ⟨hNextPrevious, hNextStamp⟩ := Prod.mk.inj hNextFields
  exact ⟨second, third, hRoot, hPrevious, hStamp, hNext, hNextPrevious, hNextStamp⟩

theorem Host.linked_skewed (u : Version) (hAbove : 1 < u) (hTop : u ≤ 2) :
    u = 2 ∧ Site.top.Linked skewed u := by
  obtain ⟨-, third, -, -, -, hRoot, hPrevious, -⟩ := exists_rootAt_skewed
  obtain rfl : u = 2 := UInt64.le_antisymm hTop (by
    rw [UInt64.lt_iff_toNat_lt] at hAbove
    exact UInt64.le_iff_toNat_le.mpr hAbove)
  exact ⟨rfl, third, hRoot, hPrevious⟩

/-- Below a root that names no predecessor nothing is found, but the root itself is. -/
theorem Host.rootForVersion_skewed :
    ((start (.memory skewed) 0).run (Chain.rootForVersion .top 0)).1 =
        .error (.objectNotFound (.unreachable 0 (RootPath.ofVersion 1) .missing)) ∧
      ∃ r, ((start (.memory skewed) 0).run (Chain.rootForVersion .top 1)).1 = .ok r := by
  obtain ⟨second, -, hRoot, hPrevious, -⟩ := exists_rootAt_skewed
  have hBreaks : Chain.Breaks .top skewed 1 second.previousRootPath .missing := by
    rw [hPrevious]
    exact .missing (by decide)
  have hLinked (u : Version) (hAbove : 1 < u) (hTop : u ≤ 2) : Site.top.Linked skewed u :=
    (linked_skewed u hAbove hTop).2
  constructor
  · refine ((rootForVersion_decides rfl latestVersion_skewed 0).2.2.1 _).mpr ?_
    exact .broken (by decide) (by decide) hLinked hRoot hBreaks
  · refine ⟨second, ((rootForVersion_decides rfl latestVersion_skewed 1).1 _).mpr ?_⟩
    exact ⟨by decide, hLinked, hRoot⟩

/-! ### Looking for a time -/

/-- A version is linked to the one before it and was stamped after a time. -/
structure Site.LinkedAfter (site : Site) (m : Memory) (time : Millis) (v : Version) : Prop where
  linked : site.Linked m v
  late : ∀ r, site.rootAt? m v = some r → ¬ r.StampedBy time

/-- Up to the newest version this is the last one that was stamped at a time or before it, and from
the newest on all versions are linked down to it. -/
structure Site.LastStamped (site : Site) (m : Memory) (head : Version) (time : Millis) (v : Version)
    (r : Root) : Prop where
  upTo : v ≤ head
  root : site.rootAt? m v = some r
  stamped : r.StampedBy time
  above : ∀ w, v < w → w ≤ head → site.LinkedAfter m time w

namespace Chain

variable {head : Version} {time : Millis}

/-- Why no version is found for a time from the newest one on: all versions are linked and were
stamped later, or the way down is broken or cannot be read before one is met that was not. -/
inductive NoneBy (site : Site) (m : Memory) (head : Version) (time : Millis) : Error → Prop
  | first (hAll : ∀ w ≤ head, site.LinkedAfter m time w) :
      NoneBy site m head time (.objectNotFound (.beforeFirst time))
  | broken {w : Version} {r : Root} {link : BrokenLink} (hw : w ≤ head)
      (hAbove : ∀ u, w < u → u ≤ head → site.LinkedAfter m time u) (hRoot : site.rootAt? m w = some r)
      (hLate : ¬ r.StampedBy time) (hBreaks : Breaks site m w r.previousRootPath link) :
      NoneBy site m head time (.objectNotFound (.beforeReachable time (RootPath.ofVersion w) link))
  | corrupted {w : Version} {corruption : Corruption} (hw : w ≤ head)
      (hAbove : ∀ u, w < u → u ≤ head → site.LinkedAfter m time u)
      (hCorrupted : site.CorruptedAt m w corruption) :
      NoneBy site m head time (.corrupted (RootPath.ofVersion w) corruption)

namespace Search

theorem judge_forTime_eq_none {location : Location} {r : Root} :
    (forTime time).judge location r = none ↔ ¬ r.StampedBy time := by
  by_cases hBy : r.StampedBy time
  · simp [hBy.judge location, hBy]
  · simp [Root.judge_late hBy location, hBy]

theorem judge_forTime_eq_some {location : Location} {r : Root} {result : Except Error Root} :
    (forTime time).judge location r = some result ↔ r.StampedBy time ∧ .ok r = result := by
  by_cases hBy : r.StampedBy time
  · simp [hBy.judge location, hBy]
  · simp [Root.judge_late hBy location, hBy]

theorem passes_forTime : (forTime time).Passes site m v ↔ v ≠ 0 ∧ site.LinkedAfter m time v := by
  constructor
  · exact fun h => ⟨h.later, h.linked, fun r hRoot => judge_forTime_eq_none.mp (h.undecided r hRoot)⟩
  · rintro ⟨hLater, hLinked, hLate⟩
    exact ⟨hLater, hLinked, fun r hRoot => judge_forTime_eq_none.mpr (hLate r hRoot)⟩

/-- A search for a time passes the versions above the one at which it ends. -/
theorem all_passes_forTime {u : Version} (h : ∀ w, u < w → w ≤ head → site.LinkedAfter m time w)
    (w : Version) (hw : u < w) (hTop : w ≤ head) : (forTime time).Passes site m w := by
  refine passes_forTime.mpr ⟨?_, h w hw hTop⟩
  rintro rfl
  exact UInt64.not_lt.mpr UInt64.zero_le hw

/-- A search for a time finds the last version that was stamped by then, if all above it are linked. -/
theorem descends_forTime_ok {r : Root} : (forTime time).Descends site m head (.ok r) ↔
    ∃ v, site.LastStamped m head time v r := by
  rw [descends_iff]
  constructor
  · rintro ⟨v, hv, hAbove, hEnds⟩
    cases hEnds with
    | judged hRoot hJudge =>
        obtain ⟨hBy, hSame⟩ := judge_forTime_eq_some.mp hJudge
        cases hSame
        exact ⟨v, hv, hRoot, hBy, fun w hw hTop => (passes_forTime.mp (hAbove w hw hTop)).2⟩
  · rintro ⟨v, hv, hRoot, hBy, hAbove⟩
    exact ⟨v, hv, all_passes_forTime hAbove, .judged hRoot (hBy.judge _)⟩

/-- It fails exactly for the reasons why no version may be found. -/
theorem descends_forTime_error {e : Error} :
    (forTime time).Descends site m head (.error e) ↔ NoneBy site m head time e := by
  rw [descends_iff]
  constructor
  · rintro ⟨u, hu, hAbove, hEnds⟩
    have hLate (w : Version) (hw : u < w) (hTop : w ≤ head) : site.LinkedAfter m time w :=
      (passes_forTime.mp (hAbove w hw hTop)).2
    cases hEnds with
    | corrupted hCorrupted => exact .corrupted hu hLate hCorrupted
    | judged hRoot hJudge =>
        obtain ⟨-, hSame⟩ := judge_forTime_eq_some.mp hJudge
        cases hSame
    | broken hRoot hJudge hBreaks =>
        exact .broken hu hLate hRoot (judge_forTime_eq_none.mp hJudge) hBreaks
    | @exhausted r hFirst hRoot hJudge hPrevious =>
        subst hFirst
        refine .first fun w hTop => ?_
        by_cases hZero : w = 0
        · subst hZero
          refine ⟨⟨r, hRoot, hPrevious⟩, fun found hFound => ?_⟩
          cases hRoot.symm.trans hFound
          exact judge_forTime_eq_none.mp hJudge
        · exact hLate w (UInt64.lt_of_le_of_ne UInt64.zero_le (Ne.symm hZero)) hTop
  · intro h
    cases h with
    | first hAll =>
        obtain ⟨r, hRoot, hPrevious⟩ := (hAll 0 UInt64.zero_le).linked
        have hLate := (hAll 0 UInt64.zero_le).late r hRoot
        refine ⟨0, UInt64.zero_le, all_passes_forTime fun w _ hTop => hAll w hTop, ?_⟩
        exact .exhausted rfl hRoot (Root.judge_late hLate _) hPrevious
    | @broken w r link hw hAbove hRoot hLate hBreaks =>
        exact ⟨w, hw, all_passes_forTime hAbove, .broken hRoot (Root.judge_late hLate _) hBreaks⟩
    | @corrupted w corruption hw hAbove hCorrupted =>
        exact ⟨w, hw, all_passes_forTime hAbove, .corrupted hCorrupted⟩

end Search

end Chain

/-- Whatever is stored at root paths and as the hint, and in whatever order roots were stamped, what is
found for a time is the last version up to the newest that was stamped by then, and it is found exactly
if all versions from the newest down to it are linked. Otherwise the search says whether it came to the
beginning of the chain or what was in its way. It reads one root after another from the newest on. -/
theorem Host.rootBefore_decides {h : Host} {head : Version}
    (hStore : h.store = .ofBackend (.memory m)) (hHead : (h.run (Chain.latestVersion site)).1 = .ok head)
    (time : Millis) :
    (∀ r, (h.run (Chain.rootBefore site time)).1 = .ok r ↔ ∃ v, site.LastStamped m head time v r) ∧
    (∀ e, (h.run (Chain.rootBefore site time)).1 = .error e ↔ Chain.NoneBy site m head time e) ∧
    ∃ count ≤ head.toNat + 1,
      Exchange.rootReads site ((Chain.rootBefore site time).exchanges answer h) =
        Chain.downFrom head count :=
  ⟨fun _ => (run_search_iff hStore hHead).trans Chain.Search.descends_forTime_ok,
    fun _ => (run_search_iff hStore hHead).trans Chain.Search.descends_forTime_error,
    Chain.Search.rootReads_run (Chain.Search.stopsAt_zero _) hHead⟩

/-- The newest root is found for a time before the one below it was stamped, and for an earlier time
nothing is found, because the first root is out of reach. -/
theorem Host.rootBefore_skewed :
    (∃ r, r.createdAt = some 7 ∧ ((start (.memory skewed) 0).run (Chain.rootBefore .top 8)).1 = .ok r) ∧
      ((start (.memory skewed) 0).run (Chain.rootBefore .top 6)).1 =
        .error (.objectNotFound (.beforeReachable 6 (RootPath.ofVersion 1) .missing)) := by
  obtain ⟨second, third, hRoot, hPrevious, hStamp, hNext, -, hNextStamp⟩ := exists_rootAt_skewed
  have hBreaks : Chain.Breaks .top skewed 1 second.previousRootPath .missing := by
    rw [hPrevious]
    exact .missing (by decide)
  constructor
  · refine ⟨third, hNextStamp, ((rootBefore_decides rfl latestVersion_skewed 8).1 _).mpr ⟨2, ?_⟩⟩
    refine ⟨by decide, hNext, ⟨7, hNextStamp, by decide⟩, fun w hw hTop => ?_⟩
    exact absurd hTop (UInt64.not_le.mpr hw)
  · refine ((rootBefore_decides rfl latestVersion_skewed 6).2.1 _).mpr ?_
    refine .broken (by decide) (fun u hAbove hTop => ?_) hRoot ?_ hBreaks
    · obtain ⟨rfl, hLinked⟩ := linked_skewed u hAbove hTop
      refine ⟨hLinked, fun r hFound => ?_⟩
      cases hNext.symm.trans hFound
      rintro ⟨stamp, hBy, hLe⟩
      cases hNextStamp.symm.trans hBy
      exact absurd hLe (by decide)
    · rintro ⟨stamp, hBy, hLe⟩
      cases hStamp.symm.trans hBy
      exact absurd hLe (by decide)

end SnapshotCatalog
