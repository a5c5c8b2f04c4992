import SnapshotCatalog.Proofs.Publications
/-!
Programs that only read what is stored. What such a program finds does not depend on when it looks,
because nothing that is stored is ever changed apart from the hint: whatever else is created
meanwhile, it ends as it would have ended at once, unless one of its reads fails.
-/
namespace SnapshotCatalog

open Storage (Memory)

section Finds

variable {α β : Type} {site : Site} {m m' : Memory}

/-- The program reads stored objects other than the hint, one after another, and then ends so. Where
the store does not perform a read, it ends with that fault. -/
inductive Finds (site : Site) (m : Memory) : Program α → Except Error α → Prop
  | done (value : α) : Finds site m (.done value) (.ok value)
  | fail (e : Error) : Finds site m (.fail e) (.error e)
  | get {key : String} {blob : Storage.Blob} {next : Except Error Storage.Blob → Program α}
      {outcome : Except Error α} (hKey : key ≠ site.resolve Hint.path)
      (hGet : m.get? key = some blob)
      (hFault : ∀ e : Error, e.isFault = true → next (.error e) = .fail e)
      (hNext : Finds site m (next (.ok blob)) outcome) :
      Finds site m (.request (.call (.get key)) next) outcome

theorem finds_ofExcept (e : Except Error α) : Finds site m (.ofExcept e) e := by
  cases e with
  | ok value => exact .done value
  | error e => exact .fail e

namespace Finds

variable {p : Program α} {next : α → Program β} {outcome : Except Error β}

/-- What is found is found in every later store. -/
theorem grows {result : Except Error α} (h : Finds site m p result) (hGrows : site.Grows m m') :
    Finds site m' p result := by
  induction h with
  | done value => exact .done value
  | fail e => exact .fail e
  | get hKey hGet hFault _ ih => exact .get hKey (hGrows _ _ hKey hGet) hFault ih

theorem bind {value : α} (h : Finds site m p (.ok value))
    (hNext : Finds site m (next value) outcome) : Finds site m (p.bind next) outcome := by
  generalize hResult : Except.ok value = result at h
  induction h with
  | done value =>
      cases hResult
      exact hNext
  | fail e => cases hResult
  | get hKey hGet hFault _ ih =>
      refine .get hKey hGet (fun e he => ?_) (ih hResult)
      rw [hFault e he]
      rfl

theorem bind_error {e : Error} (h : Finds site m p (.error e)) :
    Finds site m (p.bind next) (.error e) := by
  generalize hResult : Except.error e = result at h
  induction h with
  | done value => cases hResult
  | fail e =>
      cases hResult
      exact .fail e
  | get hKey hGet hFault _ ih =>
      refine .get hKey hGet (fun e he => ?_) (ih hResult)
      rw [hFault e he]
      rfl

/-- What follows an attempt passes its faults on. -/
theorem attempt_bind {value : α} {next : Except Error α → Program β}
    (h : Finds site m p (.ok value))
    (hFault : ∀ e : Error, e.isFault = true → next (.error e) = .fail e)
    (hNext : Finds site m (next (.ok value)) outcome) :
    Finds site m (p.attempt.bind next) outcome := by
  generalize hResult : Except.ok value = result at h
  induction h with
  | done value =>
      cases hResult
      exact hNext
  | fail e => cases hResult
  | get hKey hGet hPasses _ ih =>
      refine .get hKey hGet (fun e he => ?_) (ih hResult)
      show (Program.attempt _).bind _ = _
      rw [hPasses e he]
      exact hFault e he

/-- One answered request later the program still ends so, unless the answer was a fault, with which
it then ends. -/
theorem step {r : Request} {next : r.Answer → Program α} {result : Except Error α} {a : r.Answer}
    (h : Finds site m (.request r next) result) (hServes : System.Serves m r a m') :
    Finds site m' (next a) result ∨ ∃ e : Error, e.isFault = true ∧ next a = .fail e := by
  cases h with
  | get hKey hGet hFault hNext =>
      cases hServes with
      | performed c =>
          simp only [Memory.answer, hGet]
          exact .inl hNext
      | failed c e he => exact .inr ⟨e, he, hFault e he⟩

end Finds

/-- An object that is stored is read. -/
theorem finds_read {path : String} {blob : Storage.Blob} (hPath : path ≠ Hint.path)
    (hCheck : Path.check path = .ok ()) (hGet : m.get? (site.resolve path) = some blob) :
    Finds site m (site.read path) (.ok blob) := by
  rw [Site.read, site.key_of_check hCheck]
  exact .get (site.resolve_ne_hint hPath) hGet (fun _ _ => rfl) (.done blob)

end Finds

/-! ### Roots -/

/-- The search from a version on that was found to be the newest. -/
def Chain.Search.runFrom (s : Search) (site : Site) (top : Version) : Program Root :=
  (readRoot site top).bind fun head =>
    (Program.ofExcept (locationOf head)).bind fun location =>
      s.down site location.version.toNat head

theorem Chain.Search.run_eq (s : Search) (site : Site) :
    s.run site = (latestVersion site).bind (s.runFrom site) :=
  Program.bind_assoc _ _ _

/-- How a search goes on with what stands below a root that leaves it open, when below that root there
are at most so many others. -/
def Chain.Search.goOn (s : Search) (site : Site) (below : Nat) : Previous → Program Root
  | .start => .fail s.exhausted
  | .broken path link => .fail (s.broken path link)
  | .root previous =>
    match below with
    | 0 => .fail s.exhausted
    | below + 1 => s.down site below previous

section Down

open Chain

variable {s : Search} {site : Site} {r : Root} {location : Location}

theorem Chain.Search.down_judged (hLocation : r.location = some location)
    {result : Except Error Root} (hJudge : s.judge location r = some result) (below : Nat) :
    s.down site below r = Program.ofExcept result := by
  rw [down.eq_def]
  simp only [locationOf, hLocation, Program.bind_eq, Program.ofExcept_ok, Program.done_bind, hJudge]

theorem Chain.Search.down_open (hLocation : r.location = some location)
    (hJudge : s.judge location r = none) (below : Nat) :
    s.down site below r = (readPrevious site r).bind (s.goOn site below) := by
  rw [down.eq_def]
  simp only [locationOf, hLocation, Program.bind_eq, Program.ofExcept_ok, Program.done_bind, hJudge]
  rfl

/-- From a version whose root knows its place a search goes down from that root. -/
theorem Chain.Search.down_of_location (hLocation : r.location = some location) :
    ((Program.ofExcept (locationOf r)).bind fun location => s.down site location.version.toNat r) =
      s.down site location.version.toNat r := by
  rw [locationOf, hLocation, Program.ofExcept_ok, Program.done_bind]

end Down

theorem Chain.readRoot_eq (site : Site) (v : Version) :
    readRoot site v = (site.read (RootPath.ofVersion v)).bind fun blob =>
      Program.ofExcept (parseRoot (.ofVersion v) blob) := by
  rw [readRoot, readRootAt, versionAt, RootPath.version?_ofVersion]
  rfl

namespace Records

open Chain

variable {site : Site} {m : Memory} {published : List Publication} (h : Records site m published)

include h

theorem finds_readRoot {v : Version} {p : Publication} (hp : published[v.toNat]? = some p) :
    Finds site m (readRoot site v) (.ok p.root) := by
  have hGet := h.stored v
  rw [hp, Option.map_some] at hGet
  obtain ⟨first, hFirst⟩ := exists_first (List.mem_of_getElem? hp)
  have hVersion := h.isVersion hFirst hp
  rw [UInt64.ofNat_toNat] at hVersion
  have hCheck : Path.check (RootPath.ofVersion v) = .ok () := site.check_of_key (site.key_root v)
  have hRead : Finds site m (site.read (RootPath.ofVersion v)) (.ok p.root.blob) :=
    finds_read (RootPath.ofVersion_ne_hint v) hCheck hGet
  rw [readRoot_eq]
  apply hRead.bind
  rw [hVersion.parseRoot_blob]
  exact .done p.root

/-- Below the root of version 0 the chain ends. -/
theorem finds_readPrevious_first {first : Publication} (hFirst : published[0]? = some first) :
    Finds site m (readPrevious site first.root) (.ok .start) := by
  have hVersion := h.isVersion hFirst hFirst
  rw [readPrevious, locationOf, hVersion.location, hVersion.previousRootPath]
  exact .done _

/-- Below the root of a later version stands the root of the version before it. -/
theorem finds_readPrevious {i : Nat} {p q : Publication} (hp : published[i]? = some p)
    (hq : published[i + 1]? = some q) :
    Finds site m (readPrevious site q.root) (.ok (.root p.root)) := by
  obtain ⟨first, hFirst⟩ := exists_first (List.mem_of_getElem? hp)
  have hVersion := h.isVersion hFirst hq
  have hLength := (List.getElem?_eq_some_iff.mp hq).1
  have hCount := h.countable
  have hPlace : (UInt64.ofNat i).toNat = i := UInt64.toNat_ofNat_of_lt' (by omega)
  have hNextPlace : (UInt64.ofNat (i + 1)).toNat = i + 1 := UInt64.toNat_ofNat_of_lt' (by omega)
  have hNonzero : UInt64.ofNat (i + 1) ≠ 0 := by
    intro hZero
    rw [hZero, UInt64.toNat_zero] at hNextPlace
    omega
  have hBefore : UInt64.ofNat (i + 1) - 1 = UInt64.ofNat i := by
    rw [UInt64.ofNat_add]
    exact UInt64.add_sub_cancel _ _
  have hLocation : locationOf q.root = .ok (.ofVersion (UInt64.ofNat (i + 1))) := by
    rw [locationOf, hVersion.location]
  have hPointer : pointer (Location.ofVersion (UInt64.ofNat (i + 1))).version
      q.root.previousRootPath = .root (RootPath.ofVersion (UInt64.ofNat i)) := by
    rw [Location.ofVersion, hVersion.previousRootPath, if_neg hNonzero, hBefore, pointer,
      if_neg hNonzero, RootPath.version?_ofVersion]
    simp only
    rw [if_pos (by rw [hPlace, hNextPlace])]
  have hRead : Finds site m (readRootAt site (RootPath.ofVersion (UInt64.ofNat i)))
      (.ok p.root) := h.finds_readRoot (by rw [hPlace]; exact hp)
  have hPasses (e : Error) (he : e.isFault = true) : e.isNotFound = false := by
    cases e <;> first | rfl | cases he
  rw [readPrevious, hLocation]
  apply (finds_ofExcept _).bind
  rw [hPointer]
  refine hRead.attempt_bind (fun e he => ?_) (.done _)
  dsimp only
  rw [hPasses e he]
  rfl

/-- How a search for a version judges the root of some version. -/
theorem judge_forVersion {v : Version} {i : Nat} {p : Publication} (hp : published[i]? = some p) :
    ∃ location, locationOf p.root = .ok location ∧ location.version.toNat = i ∧
      (v.toNat = i → (Search.forVersion v).judge location p.root = some (.ok p.root)) ∧
      (v.toNat < i → (Search.forVersion v).judge location p.root = none) := by
  obtain ⟨first, hFirst⟩ := exists_first (List.mem_of_getElem? hp)
  have hVersion := h.isVersion hFirst hp
  have hLength := (List.getElem?_eq_some_iff.mp hp).1
  have hCount := h.countable
  have hPlace : (UInt64.ofNat i).toNat = i := UInt64.toNat_ofNat_of_lt' (by omega)
  refine ⟨.ofVersion (UInt64.ofNat i), by rw [locationOf, hVersion.location], hPlace,
    fun hHere => ?_, fun hAbove => ?_⟩
  · have hSame : UInt64.ofNat i = v := UInt64.toNat_inj.mp (hPlace.trans hHere.symm)
    exact if_pos hSame
  · have hOther : UInt64.ofNat i ≠ v := by
      rintro rfl
      exact Nat.ne_of_lt hAbove hPlace
    have hNotBelow : ¬ UInt64.ofNat i < v := by
      rw [UInt64.lt_iff_toNat_lt, hPlace]
      omega
    exact (if_neg hOther).trans (if_neg hNotBelow)

/-- From a later root on the search for a version goes down to it. -/
theorem finds_down {v : Version} {found : Publication} (hFound : published[v.toNat]? = some found)
    {below i : Nat} {p : Publication} (hp : published[i]? = some p) (hAbove : v.toNat ≤ i)
    (hBelow : i - v.toNat ≤ below) :
    Finds site m ((Search.forVersion v).down site below p.root) (.ok found.root) := by
  induction below generalizing i p with
  | zero =>
      obtain ⟨location, hLocation, -, hHere, -⟩ := h.judge_forVersion (v := v) hp
      obtain rfl : v.toNat = i := by omega
      cases hFound.symm.trans hp
      rw [Search.down, hLocation]
      apply (finds_ofExcept _).bind
      rw [hHere rfl]
      exact .done _
  | succ below ih =>
      obtain ⟨location, hLocation, -, hHere, hGoesOn⟩ := h.judge_forVersion (v := v) hp
      rw [Search.down, hLocation]
      apply (finds_ofExcept _).bind
      rcases Nat.eq_or_lt_of_le hAbove with hSame | hFurther
      · subst hSame
        cases hFound.symm.trans hp
        rw [hHere rfl]
        exact .done _
      · obtain ⟨j, rfl⟩ := Nat.exists_eq_succ_of_ne_zero (Nat.ne_of_gt (Nat.zero_lt_of_lt hFurther))
        have hLength := (List.getElem?_eq_some_iff.mp hp).1
        have hBefore : published[j]? = some published[j] := List.getElem?_eq_getElem (by omega)
        rw [hGoesOn hFurther]
        exact (h.finds_readPrevious hBefore hp).bind
          (ih hBefore (Nat.le_of_lt_succ hFurther) (by omega))

/-- A version is found from every later one. -/
theorem finds_runFrom {v top : Version} {found : Publication}
    (hFound : published[v.toNat]? = some found) (hAbove : v.toNat ≤ top.toNat)
    (hTop : top.toNat < published.length) :
    Finds site m ((Search.forVersion v).runFrom site top) (.ok found.root) := by
  have hHead : published[top.toNat]? = some published[top.toNat] := List.getElem?_eq_getElem hTop
  obtain ⟨location, hLocation, hPlace, -⟩ := h.judge_forVersion (v := v) hHead
  have hBelow : top.toNat - v.toNat ≤ location.version.toNat := by omega
  apply (h.finds_readRoot hHead).bind
  rw [hLocation]
  exact (finds_ofExcept _).bind (h.finds_down hFound hHead hAbove hBelow)

end Records

end SnapshotCatalog
