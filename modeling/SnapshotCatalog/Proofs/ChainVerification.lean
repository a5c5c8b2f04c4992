import SnapshotCatalog.Proofs.Serialization
import SnapshotCatalog.Proofs.StillStore
/-!
Verifying a chain that anyone may have tampered with. Nothing is known of the objects at root paths
or of the hint. The walk from the newest version down reads each root that it comes to, and it goes
on exactly where a root names the version before it and that version is stored. So it reaches
version 0 only along a whole chain, and otherwise it stops at the newest version at which the chain
is at fault and says what is wrong there.
-/
namespace SnapshotCatalog

open Storage (Memory)

/-- The root of a version can be read and names the root of the version before it, or none if it is
the first. -/
def Site.Linked (site : Site) (m : Memory) (v : Version) : Prop :=
  ∃ r, site.rootAt? m v = some r ∧
    r.previousRootPath = if v = 0 then none else some (RootPath.ofVersion (v - 1))

/-- The root of a version is stored. -/
def Site.HasRootAt (site : Site) (m : Memory) (v : Version) : Prop :=
  m.contains (site.resolve (RootPath.ofVersion v)) = true

variable {site : Site} {m : Memory} {v : Version} {r : Root}

theorem Site.hasRootAt_iff_exists :
    site.HasRootAt m v ↔ ∃ blob, m.get? (site.resolve (RootPath.ofVersion v)) = some blob :=
  Option.isSome_iff_exists

/-- A version that can be read is stored, and its root knows its place. -/
theorem Site.exists_of_rootAt? (h : site.rootAt? m v = some r) :
    ∃ blob, m.get? (site.resolve (RootPath.ofVersion v)) = some blob ∧
      Chain.parseRoot (.ofVersion v) blob = .ok r ∧ r.location = some (.ofVersion v) := by
  obtain ⟨blob, hGet, hParse⟩ := Option.bind_eq_some_iff.mp h
  cases hRoot : Chain.parseRoot (.ofVersion v) blob with
  | error e =>
      rw [hRoot] at hParse
      cases hParse
  | ok found =>
      rw [hRoot] at hParse
      cases hParse
      obtain ⟨_, -, hPlaced⟩ := bind_eq_ok.mp hRoot
      cases hPlaced
      exact ⟨blob, hGet, hRoot, rfl⟩

theorem Site.rootAt?_of_parse {blob : Storage.Blob}
    (hGet : m.get? (site.resolve (RootPath.ofVersion v)) = some blob)
    (hParse : Chain.parseRoot (.ofVersion v) blob = .ok r) : site.rootAt? m v = some r := by
  rw [rootAt?, hGet, Option.bind_some, hParse]
  rfl

theorem Site.Linked.hasRootAt (h : site.Linked m v) : site.HasRootAt m v := by
  obtain ⟨r, hRoot, -⟩ := h
  obtain ⟨blob, hGet, -⟩ := exists_of_rootAt? hRoot
  exact hasRootAt_iff_exists.mpr ⟨blob, hGet⟩

namespace Chain

/-- What does not parse is corruption at its place. -/
theorem parseRoot_eq_error {location : Location} {blob : Storage.Blob} {e : Error}
    (h : parseRoot location blob = .error e) :
    ∃ corruption, e = .corrupted location.path corruption := by
  have hNode : parseNode location.path blob = .error e := by
    cases hParse : parseNode location.path blob with
    | error found =>
        rw [parseRoot, hParse] at h
        exact h
    | ok root =>
        rw [parseRoot, hParse] at h
        cases h
  unfold parseNode at hNode
  split at hNode
  · cases hNode
    exact ⟨_, rfl⟩
  · split at hNode
    · cases hNode
    · cases hNode
      exact ⟨_, rfl⟩

/-- What the root of a version names as its predecessor breaks the chain. -/
inductive Breaks (site : Site) (m : Memory) (v : Version) : Option String → BrokenLink → Prop
  | missing (hLater : v ≠ 0) : Breaks site m v none .missing
  | malformed {path : String} (hLater : v ≠ 0) (hPath : RootPath.isRootPath path = false) :
      Breaks site m v (some path) (.malformed path)
  | skips {before : Version} (hLater : v ≠ 0) (hBefore : before ≠ v - 1) :
      Breaks site m v (some (RootPath.ofVersion before)) (.skips v before)
  | dangling (hLater : v ≠ 0) (hAbsent : ¬ site.HasRootAt m (v - 1)) :
      Breaks site m v (some (RootPath.ofVersion (v - 1)))
        (.dangling (RootPath.ofVersion (v - 1)))
  | firstHasPrevious {path : String} (hFirst : v = 0) :
      Breaks site m v (some path) (.firstHasPrevious path)

/-- Whatever a root names as its predecessor, the chain starts there, goes on or is broken. -/
theorem pointer_cases (site : Site) (m : Memory) (v : Version) (previous : Option String) :
    (v = 0 ∧ previous = none) ∨
      (v ≠ 0 ∧ previous = some (RootPath.ofVersion (v - 1)) ∧ site.HasRootAt m (v - 1)) ∨
      ∃ link, Breaks site m v previous link := by
  by_cases hFirst : v = 0
  · cases previous with
    | none => exact .inl ⟨hFirst, rfl⟩
    | some path => exact .inr (.inr ⟨_, .firstHasPrevious hFirst⟩)
  · cases previous with
    | none => exact .inr (.inr ⟨_, .missing hFirst⟩)
    | some path =>
        by_cases hShape : RootPath.isRootPath path = true
        · obtain ⟨before, rfl⟩ := (RootPath.isRootPath_iff_exists path).mp hShape
          by_cases hBefore : before = v - 1
          · subst hBefore
            by_cases hStored : site.HasRootAt m (v - 1)
            · exact .inr (.inl ⟨hFirst, rfl, hStored⟩)
            · exact .inr (.inr ⟨_, .dangling hFirst hStored⟩)
          · exact .inr (.inr ⟨_, .skips hFirst hBefore⟩)
        · exact .inr (.inr ⟨_, .malformed hFirst (Bool.not_eq_true _ ▸ hShape)⟩)

/-- What is wrong at a version: its root, as far as it can be read, and the error that tells what is
wrong. -/
inductive Fault (site : Site) (m : Memory) (v : Version) : List Root → Error → Prop
  | unreadable {blob : Storage.Blob} {corruption : Corruption}
      (hGet : m.get? (site.resolve (RootPath.ofVersion v)) = some blob)
      (hParse : parseRoot (.ofVersion v) blob =
        .error (.corrupted (RootPath.ofVersion v) corruption)) :
      Fault site m v [] (.corrupted (RootPath.ofVersion v) corruption)
  | broken {r : Root} {link : BrokenLink} (hRoot : site.rootAt? m v = some r)
      (hBreaks : Breaks site m v r.previousRootPath link) :
      Fault site m v [r] (.corrupted (RootPath.ofVersion v) (.brokenLink link))

/-- The roots that a walk from a version down the chain reads, the newest first, and the error that
ends it, if one does. -/
inductive Walk (site : Site) (m : Memory) : Version → List Root → Option Error → Prop
  | fault {v : Version} {found : List Root} {e : Error} (h : Fault site m v found e) :
      Walk site m v found (some e)
  | first {r : Root} (hRoot : site.rootAt? m 0 = some r) (hPrevious : r.previousRootPath = none) :
      Walk site m 0 [r] none
  | next {v : Version} {r : Root} {read : List Root} {error : Option Error}
      (hRoot : site.rootAt? m v = some r) (hLater : v ≠ 0)
      (hPrevious : r.previousRootPath = some (RootPath.ofVersion (v - 1)))
      (hStored : site.HasRootAt m (v - 1)) (hRest : Walk site m (v - 1) read error) :
      Walk site m v (r :: read) error

theorem toNat_sub_one {v : Version} (h : v ≠ 0) : (v - 1).toNat + 1 = v.toNat := by
  have hPositive : v.toNat ≠ 0 := fun hZero => h (UInt64.toNat_inj.mp hZero)
  have hOne : (1 : Version) ≤ v := by
    rw [UInt64.le_iff_toNat_le, UInt64.toNat_one]
    omega
  rw [UInt64.toNat_sub_of_le _ _ hOne, UInt64.toNat_one]
  omega

theorem le_sub_one {v w : Version} (h : w ≤ v) (hOther : w ≠ v) : w ≤ v - 1 := by
  have hDiffer : w.toNat ≠ v.toNat := fun hSame => hOther (UInt64.toNat_inj.mp hSame)
  rw [UInt64.le_iff_toNat_le] at h ⊢
  have hLater : v ≠ 0 := by
    rintro rfl
    rw [UInt64.toNat_zero] at h hDiffer
    omega
  have hLess := toNat_sub_one hLater
  omega

/-- From every stored version there is a walk. It ends because each root names an earlier version
than its own. -/
theorem exists_walk (h : site.HasRootAt m v) : ∃ read error, Walk site m v read error := by
  obtain ⟨n, hn⟩ : ∃ n, v.toNat = n := ⟨_, rfl⟩
  induction n using Nat.strongRecOn generalizing v with
  | ind n ih =>
      obtain ⟨blob, hGet⟩ := Site.hasRootAt_iff_exists.mp h
      cases hParse : parseRoot (.ofVersion v) blob with
      | error e =>
          obtain ⟨corruption, rfl⟩ := parseRoot_eq_error hParse
          exact ⟨_, _, .fault (.unreadable hGet hParse)⟩
      | ok r =>
          have hRoot := Site.rootAt?_of_parse hGet hParse
          rcases pointer_cases site m v r.previousRootPath with
            ⟨rfl, hNone⟩ | ⟨hLater, hPrevious, hStored⟩ | ⟨link, hBreaks⟩
          · exact ⟨_, _, .first hRoot hNone⟩
          · have hLess := toNat_sub_one hLater
            obtain ⟨read, error, hRest⟩ := ih (v - 1).toNat (by omega) hStored rfl
            exact ⟨_, _, .next hRoot hLater hPrevious hStored hRest⟩
          · exact ⟨_, _, .fault (.broken hRoot hBreaks)⟩

/-! ### What a walk tells of the chain -/

/-- So many versions, from one downwards. -/
def downFrom (v : Version) : Nat → List Version
  | 0 => []
  | count + 1 => v :: downFrom (v - 1) count

section Fault

variable {found : List Root} {e : Error}

theorem Fault.map_some (h : Fault site m v found e) :
    found.map some = (downFrom v found.length).map (site.rootAt? m) := by
  cases h with
  | unreadable hGet hParse => rfl
  | broken hRoot hBreaks => exact congrArg ([·]) hRoot.symm

theorem Fault.length_le (h : Fault site m v found e) : found.length ≤ 1 := by
  cases h with
  | unreadable hGet hParse => exact Nat.zero_le 1
  | broken hRoot hBreaks => exact Nat.le_refl 1

/-- A chain that is whole up to a version has no fault there. -/
theorem Fault.not_linked (h : Fault site m v found e) : ¬ ∀ w ≤ v, site.Linked m w := by
  intro hLinked
  obtain ⟨r, hRoot, hPrevious⟩ := hLinked v (UInt64.le_refl v)
  cases h with
  | unreadable hGet hParse =>
      rw [Site.rootAt?, hGet, Option.bind_some, hParse] at hRoot
      cases hRoot
  | @broken found link hFound hBreaks =>
      obtain rfl := Option.some.inj (hFound.symm.trans hRoot)
      rw [hPrevious] at hBreaks
      by_cases hFirst : v = 0
      · rw [if_pos hFirst] at hBreaks
        cases hBreaks with
        | missing hLater => exact hLater hFirst
      · rw [if_neg hFirst] at hBreaks
        generalize hPath : some (RootPath.ofVersion (v - 1)) = previous at hBreaks
        cases hBreaks with
        | missing hLater => cases hPath
        | malformed hLater hShape =>
            obtain rfl := Option.some.inj hPath
            rw [RootPath.isRootPath_ofVersion] at hShape
            cases hShape
        | skips hLater hBefore =>
            exact hBefore (RootPath.ofVersion_injective (Option.some.inj hPath)).symm
        | dangling hLater hAbsent =>
            have hLess := toNat_sub_one hLater
            exact hAbsent (hLinked (v - 1) (UInt64.le_iff_toNat_le.mpr (by omega))).hasRootAt
        | firstHasPrevious hZero => exact hFirst hZero

end Fault

namespace Walk

variable {read : List Root} {error : Option Error} {e : Error}

/-- The roots that were read are those of one version after another. -/
theorem map_some (h : Walk site m v read error) :
    read.map some = (downFrom v read.length).map (site.rootAt? m) := by
  induction h with
  | fault hFault => exact hFault.map_some
  | first hRoot hPrevious => exact congrArg ([·]) hRoot.symm
  | next hRoot hLater hPrevious hStored hRest ih =>
      rw [List.map_cons, List.length_cons, downFrom, List.map_cons, hRoot, ih]

theorem length_le (h : Walk site m v read error) : read.length ≤ v.toNat + 1 := by
  induction h with
  | fault hFault => exact Nat.le_add_left_of_le hFault.length_le
  | first hRoot hPrevious => exact Nat.le_refl 1
  | next hRoot hLater hPrevious hStored hRest ih =>
      have hLess := toNat_sub_one hLater
      rw [List.length_cons]
      omega

/-- A walk that meets no error has read a whole chain. -/
theorem linked (h : Walk site m v read none) :
    read.length = v.toNat + 1 ∧ ∀ w ≤ v, site.Linked m w := by
  generalize hError : (none : Option Error) = error at h
  induction h with
  | fault hFault => cases hError
  | @first r hRoot hPrevious =>
      refine ⟨rfl, fun w hw => ?_⟩
      obtain rfl : w = 0 := UInt64.toNat_inj.mp
        (Nat.le_zero.mp (UInt64.le_iff_toNat_le.mp hw))
      exact ⟨r, hRoot, hPrevious⟩
  | @next v r read error hRoot hLater hPrevious hStored hRest ih =>
      obtain ⟨hLength, hLinked⟩ := ih hError
      refine ⟨by rw [List.length_cons, hLength, toNat_sub_one hLater], fun w hw => ?_⟩
      by_cases hSame : w = v
      · subst hSame
        exact ⟨r, hRoot, by rw [if_neg hLater, hPrevious]⟩
      · exact hLinked w (le_sub_one hw hSame)

/-- A walk that meets an error has come down to a fault along links that lead somewhere. -/
theorem exists_fault (h : Walk site m v read (some e)) : ∃ w ≤ v, ∃ found, Fault site m w found e ∧
    read.length = v.toNat - w.toNat + found.length ∧
    ∀ u, w < u → u ≤ v → site.Linked m u ∧ site.HasRootAt m (u - 1) := by
  generalize hError : some e = error at h
  induction h with
  | @fault v found e' hFault =>
      cases hError
      refine ⟨v, UInt64.le_refl v, found, hFault, by rw [Nat.sub_self, Nat.zero_add], ?_⟩
      exact fun u hLess hu => absurd hu (UInt64.not_le.mpr hLess)
  | first hRoot hPrevious => cases hError
  | @next v r read error hRoot hLater hPrevious hStored hRest ih =>
      obtain ⟨w, hw, found, hFault, hLength, hLinked⟩ := ih hError
      have hLess := toNat_sub_one hLater
      have hBelow := UInt64.le_iff_toNat_le.mp hw
      refine ⟨w, UInt64.le_iff_toNat_le.mpr (by omega), found, hFault, ?_, fun u hAbove hu => ?_⟩
      · rw [List.length_cons, hLength]
        omega
      · by_cases hSame : u = v
        · subst hSame
          exact ⟨⟨r, hRoot, by rw [if_neg hLater, hPrevious]⟩, hStored⟩
        · exact hLinked u hAbove (le_sub_one hu hSame)

end Walk

end Chain

/-! ### What stands below a root -/

section Below

open Chain

variable {σ : Type} {answer : (r : Request) → σ → r.Answer × σ} {still : σ → Prop}

/-- There is nothing below version 0. -/
theorem yields_readPrevious_start (hLocation : r.location = some (.ofVersion 0))
    (hPrevious : r.previousRootPath = none) :
    Yields answer still (readPrevious site r) (.ok .start) := by
  have hPointer : pointer 0 r.previousRootPath = .start := by rw [hPrevious]; rfl
  simp only [readPrevious, locationOf, hLocation, Program.bind_eq, Program.ofExcept_ok,
    Program.done_bind, Location.ofVersion, hPointer]
  exact yields_done _

theorem readPrevious_of_broken (hLocation : r.location = some (.ofVersion v)) {link : BrokenLink}
    (hPointer : pointer v r.previousRootPath = .broken link) :
    readPrevious site r = .done (.broken (RootPath.ofVersion v) link) := by
  simp only [readPrevious, locationOf, hLocation, Program.bind_eq, Program.ofExcept_ok,
    Program.done_bind, Location.ofVersion, hPointer]
  rfl

/-- What stands below a root that points at a path, when the root there is read with this result. -/
def Chain.stood (v : Version) (path : String) : Except Error Root → Except Error Previous
  | .ok before => .ok (.root before)
  | .error e =>
    if e.isNotFound then .ok (.broken (RootPath.ofVersion v) (.dangling path)) else .error e

theorem yields_readPrevious (hLocation : r.location = some (.ofVersion v)) {path : String}
    (hPointer : pointer v r.previousRootPath = .root path) {result : Except Error Root}
    (hRead : Yields answer still (readRootAt site path) result) :
    Yields answer still (readPrevious site r) (stood v path result) := by
  simp only [readPrevious, locationOf, hLocation, Program.bind_eq, Program.ofExcept_ok,
    Program.done_bind, Location.ofVersion, hPointer]
  apply hRead.attempt.bind
  cases result with
  | ok before => exact yields_done _
  | error e =>
      cases hFound : e.isNotFound with
      | true =>
          simp only [stood, hFound, if_true]
          exact yields_done _
      | false =>
          simp only [stood, hFound, Bool.false_eq_true, if_false]
          exact yields_fail e

theorem pointer_link (hLater : v ≠ 0) :
    pointer v (some (RootPath.ofVersion (v - 1))) = .root (RootPath.ofVersion (v - 1)) := by
  rw [pointer, if_neg hLater]
  simp only [RootPath.version?_ofVersion, toNat_sub_one hLater, if_true]

namespace Shows

variable (h : Shows answer still site m)

include h

theorem yields_readRoot {blob : Storage.Blob}
    (hGet : m.get? (site.resolve (RootPath.ofVersion v)) = some blob) :
    Yields answer still (readRoot site v) (parseRoot (.ofVersion v) blob) := by
  have hRead : Yields answer still (site.read (RootPath.ofVersion v)) (.ok blob) := by
    rw [Site.read, site.key_root]
    apply yields_call
    intro s hs
    have hAnswer := h.get _ s (site.resolve_ne_hint (RootPath.ofVersion_ne_hint v)) hs
    simp only [Memory.answer, hGet] at hAnswer
    exact hAnswer
  rw [readRoot_eq]
  exact hRead.bind (yields_ofExcept _)

theorem yields_readRoot_of_absent (hAbsent : ¬ site.HasRootAt m v) :
    Yields answer still (readRoot site v)
      (.error (Storage.noObject (site.resolve (RootPath.ofVersion v)))) := by
  have hRead : Yields answer still (site.read (RootPath.ofVersion v))
      (.error (Storage.noObject (site.resolve (RootPath.ofVersion v)))) := by
    rw [Site.read, site.key_root]
    apply yields_call
    intro s hs
    have hAnswer := h.get _ s (site.resolve_ne_hint (RootPath.ofVersion_ne_hint v)) hs
    simp only [Memory.answer, get?_of_not_contains hAbsent] at hAnswer
    exact hAnswer
  rw [readRoot_eq]
  exact hRead.bind_error

/-- Below a root that names the version before it stands what is stored for that version. -/
theorem yields_readPrevious_link (hLocation : r.location = some (.ofVersion v)) (hLater : v ≠ 0)
    (hPrevious : r.previousRootPath = some (RootPath.ofVersion (v - 1))) {blob : Storage.Blob}
    (hGet : m.get? (site.resolve (RootPath.ofVersion (v - 1))) = some blob) :
    Yields answer still (readPrevious site r) ((parseRoot (.ofVersion (v - 1)) blob).map .root) := by
  have hYields :=
    yields_readPrevious hLocation (hPrevious ▸ pointer_link hLater) (h.yields_readRoot hGet)
  cases hParse : parseRoot (.ofVersion (v - 1)) blob with
  | ok before =>
      rw [hParse] at hYields
      exact hYields
  | error e =>
      obtain ⟨corruption, rfl⟩ := parseRoot_eq_error hParse
      rw [hParse] at hYields
      exact hYields

/-- Below a root that breaks the chain nothing stands, and the root is to blame. -/
theorem yields_readPrevious_broken (hLocation : r.location = some (.ofVersion v)) {link : BrokenLink}
    (hBreaks : Breaks site m v r.previousRootPath link) :
    Yields answer still (readPrevious site r) (.ok (.broken (RootPath.ofVersion v) link)) := by
  generalize hPrevious : r.previousRootPath = previous at hBreaks
  -- Four of the five ways show at the root itself.
  have hShown (hPointer : pointer v previous = .broken link) :
      Yields answer still (readPrevious site r) (.ok (.broken (RootPath.ofVersion v) link)) := by
    rw [readPrevious_of_broken hLocation (hPrevious ▸ hPointer)]
    exact yields_done _
  cases hBreaks with
  | missing hLater => exact hShown (by rw [pointer, if_neg hLater])
  | malformed hLater hPath =>
      refine hShown ?_
      rw [pointer, if_neg hLater, RootPath.version?, if_neg (by rw [hPath]; exact Bool.false_ne_true)]
  | @skips before hLater hBefore =>
      have hSkips : before.toNat + 1 ≠ v.toNat := fun hSame =>
        hBefore (UInt64.toNat_inj.mp (Nat.succ.inj (hSame.trans (toNat_sub_one hLater).symm)))
      refine hShown ?_
      rw [pointer, if_neg hLater]
      simp only [RootPath.version?_ofVersion, if_neg hSkips]
  | dangling hLater hAbsent =>
      exact yields_readPrevious hLocation (hPrevious ▸ pointer_link hLater)
        (h.yields_readRoot_of_absent hAbsent)
  | firstHasPrevious hFirst => exact hShown (by rw [pointer, if_pos hFirst])

end Shows

end Below

/-! ### Polling a history -/

/-- What so many polls show of a history with these roots and this end. -/
def Chain.shown (read : List Root) (error : Option Error) (polls : Nat) :
    List Root × Option Error :=
  (read.take polls, if read.length < polls then error else none)

section Polling

open Chain

variable {σ : Type} {answer : (r : Request) → σ → r.Answer × σ} {still : σ → Prop} {cursor : Cursor}
  {read : List Root} {error : Option Error} {e : Error}

/-- The next poll at a cursor reads the root of a version. -/
def Stands (answer : (r : Request) → σ → r.Answer × σ) (still : σ → Prop) (site : Site) (m : Memory)
    (cursor : Cursor) (v : Version) : Prop :=
  ∀ blob, m.get? (site.resolve (RootPath.ofVersion v)) = some blob →
    Yields answer still (poll site cursor) ((parseRoot (.ofVersion v) blob).map some)

theorem yields_readOn_error (h : Yields answer still (poll site cursor) (.error e)) (polls : Nat) :
    Yields answer still (readOn site polls cursor) (.ok (shown [] (some e) polls)) := by
  cases polls with
  | zero => exact yields_done _
  | succ polls => exact h.attempt.bind (yields_done _)

theorem yields_readOn_end (h : Yields answer still (poll site cursor) (.ok none)) (polls : Nat) :
    Yields answer still (readOn site polls cursor) (.ok (shown [] none polls)) := by
  cases polls with
  | zero => exact yields_done _
  | succ polls => exact h.attempt.bind (yields_done _)

theorem yields_readOn_root (h : Yields answer still (poll site cursor) (.ok (some r)))
    (hRest : ∀ polls, Yields answer still (readOn site polls (.after r))
      (.ok (shown read error polls))) (polls : Nat) :
    Yields answer still (readOn site polls cursor) (.ok (shown (r :: read) error polls)) := by
  cases polls with
  | zero => exact yields_done _
  | succ polls =>
      have hSame : shown (r :: read) error (polls + 1) =
          (r :: (shown read error polls).1, (shown read error polls).2) := by
        simp only [shown, List.take_succ_cons, List.length_cons, Nat.succ_lt_succ_iff]
      rw [hSame]
      exact h.attempt.bind ((hRest polls).bind (yields_done _))

/-- The next poll after a root shows what stands below it. -/
theorem yields_poll_after {previous : Except Error Previous}
    (h : Yields answer still (readPrevious site r) previous) :
    Yields answer still (poll site (.after r)) (previous.bind fun
      | .root before => .ok (some before)
      | .start => .ok none
      | .broken path link => .error (.corrupted path (.brokenLink link))) := by
  cases previous with
  | error e => exact h.bind_error
  | ok found =>
      cases found with
      | root before => exact h.bind (yields_done _)
      | start => exact h.bind (yields_done _)
      | broken path link => exact h.bind (yields_fail _)

namespace Shows

variable (h : Shows answer still site m)

include h

/-- After a root that names the version before it, that version is next. -/
theorem stands_after (hLocation : r.location = some (.ofVersion v)) (hLater : v ≠ 0)
    (hPrevious : r.previousRootPath = some (RootPath.ofVersion (v - 1))) :
    Stands answer still site m (.after r) (v - 1) := by
  intro blob hGet
  have hYields := yields_poll_after (h.yields_readPrevious_link hLocation hLater hPrevious hGet)
  cases hParse : parseRoot (.ofVersion (v - 1)) blob with
  | ok before =>
      rw [hParse] at hYields
      exact hYields
  | error e =>
      rw [hParse] at hYields
      exact hYields

/-- Polls show the walk from the version at which they begin. -/
theorem yields_readOn_walk (hWalk : Walk site m v read error)
    (hStands : Stands answer still site m cursor v) (polls : Nat) :
    Yields answer still (readOn site polls cursor) (.ok (shown read error polls)) := by
  -- A version that can be read is what the next poll shows.
  have hPoll {v : Version} {r : Root} {cursor : Cursor} (hRoot : site.rootAt? m v = some r)
      (hStands : Stands answer still site m cursor v) :
      Yields answer still (poll site cursor) (.ok (some r)) ∧
        r.location = some (.ofVersion v) := by
    obtain ⟨blob, hGet, hParse, hLocation⟩ := Site.exists_of_rootAt? hRoot
    have hYields := hStands blob hGet
    rw [hParse] at hYields
    exact ⟨hYields, hLocation⟩
  induction hWalk generalizing cursor polls with
  | fault hFault =>
      cases hFault with
      | unreadable hGet hParse =>
          have hYields := hStands _ hGet
          rw [hParse] at hYields
          exact yields_readOn_error hYields polls
      | broken hRoot hBreaks =>
          obtain ⟨hYields, hLocation⟩ := hPoll hRoot hStands
          exact yields_readOn_root hYields
            (yields_readOn_error (yields_poll_after (h.yields_readPrevious_broken hLocation hBreaks))) polls
  | first hRoot hPrevious =>
      obtain ⟨hYields, hLocation⟩ := hPoll hRoot hStands
      exact yields_readOn_root hYields
        (yields_readOn_end (yields_poll_after (yields_readPrevious_start hLocation hPrevious))) polls
  | next hRoot hLater hPrevious hStored hRest ih =>
      obtain ⟨hYields, hLocation⟩ := hPoll hRoot hStands
      exact yields_readOn_root hYields
        (ih (h.stands_after hLocation hLater hPrevious)) polls

/-! ### The newest version of a store that anyone may have tampered with -/

/-- What follows a probe is what follows the truth about the root. -/
theorem yields_probe {α : Type} {yes no : Program α} {outcome : Except Error α} {v : Version}
    (hYes : site.HasRootAt m v → Yields answer still yes outcome)
    (hNo : ¬ site.HasRootAt m v → Yields answer still no outcome) :
    Yields answer still ((hasRoot site v).bind fun found => if found then yes else no) outcome := by
  have hProbe := h.yields_hasRoot v
  by_cases hStored : site.HasRootAt m v
  · rw [hStored] at hProbe
    exact hProbe.bind (hYes hStored)
  · rw [Bool.eq_false_iff.mpr hStored] at hProbe
    exact hProbe.bind (hNo hStored)

/-- A climb from a stored version ends at a stored version. -/
theorem exists_yields_climb (hStored : site.HasRootAt m v) (left probes : Nat) :
    ∃ w spent, site.HasRootAt m w ∧ Yields answer still (climb site v probes left) (.ok (w, spent)) := by
  induction left generalizing v probes with
  | zero => exact ⟨v, probes, hStored, yields_done _⟩
  | succ left ih =>
      by_cases hMore : site.HasRootAt m (v + 1)
      · obtain ⟨w, spent, hw, hSpent⟩ := ih hMore (probes + 1)
        exact ⟨w, spent, hw, h.yields_probe (fun _ => hSpent) fun hAbsent => absurd hMore hAbsent⟩
      · exact ⟨v, probes + 1, hStored,
          h.yields_probe (fun hStored => absurd hStored hMore) fun _ => yields_done _⟩

theorem exists_yields_climbFrom (hStored : site.HasRootAt m v) (probes : Nat) :
    ∃ w, site.HasRootAt m w ∧ Yields answer still (climbFrom site v probes) (.ok w) := by
  obtain ⟨w, spent, hw, hSpent⟩ := h.exists_yields_climb hStored (versionsAfter v) probes
  exact ⟨w, hw, hSpent.bind ((h.yields_record _).bind (yields_done w))⟩

theorem yields_notInitialized (probes : Nat) :
    Yields answer still (notInitialized probes : Program Version)
      (.error (.objectNotFound .uninitialized)) :=
  (h.yields_record _).bind (yields_fail _)

/-- The search for the newest version ends at a stored version or with an error. -/
theorem exists_yields_latestFrom (hint : Version) : ∃ outcome,
    Yields answer still (latestFrom site hint) outcome ∧
      ∀ w, outcome = .ok w → site.HasRootAt m w := by
  have hFound {w : Version} {p : Program Version} (hw : site.HasRootAt m w)
      (hYields : Yields answer still p (.ok w)) : ∃ outcome,
      Yields answer still p outcome ∧ ∀ w, outcome = .ok w → site.HasRootAt m w :=
    ⟨_, hYields, fun _ hSame => Except.ok.inj hSame ▸ hw⟩
  have hNone {p : Program Version}
      (hYields : Yields answer still p (.error (.objectNotFound .uninitialized))) : ∃ outcome,
      Yields answer still p outcome ∧ ∀ w, outcome = .ok w → site.HasRootAt m w :=
    ⟨_, hYields, fun _ hSame => nomatch hSame⟩
  rw [latestFrom]
  by_cases hHint : site.HasRootAt m hint
  · obtain ⟨w, hw, hClimb⟩ := h.exists_yields_climbFrom hHint 1
    exact hFound hw (h.yields_probe (fun _ => hClimb) fun hAbsent => absurd hHint hAbsent)
  · by_cases hZero : hint = 0
    · refine hNone (h.yields_probe (fun hStored => absurd hStored hHint) fun _ => ?_)
      rw [if_pos hZero]
      exact h.yields_notInitialized 1
    · by_cases hFirst : site.HasRootAt m 0
      · obtain ⟨w, hw, hClimb⟩ := h.exists_yields_climbFrom hFirst 2
        refine hFound hw (h.yields_probe (fun hStored => absurd hStored hHint) fun _ => ?_)
        rw [if_neg hZero]
        exact (h.yields_record _).bind
          (h.yields_probe (fun _ => hClimb) fun hAbsent => absurd hFirst hAbsent)
      · refine hNone (h.yields_probe (fun hStored => absurd hStored hHint) fun _ => ?_)
        rw [if_neg hZero]
        exact (h.yields_record _).bind (h.yields_probe (fun hStored => absurd hStored hFirst)
          fun _ => h.yields_notInitialized 2)

/-- A version that is found to be the newest is stored. -/
theorem hasRootAt_of_latestVersion {s : σ} (hs : still s) {head : Version}
    (hHead : ((latestVersion site).run answer s).1 = .ok head) : site.HasRootAt m head := by
  obtain ⟨hint, hRead, hStill⟩ := h.run_readHint s hs
  obtain ⟨outcome, hYields, hStored⟩ := h.exists_yields_latestFrom hint
  rw [latestVersion, Program.bind_eq, Program.run_bind] at hHead
  generalize (Hint.read site).run answer s = read at hRead hStill hHead
  obtain ⟨result, s'⟩ := read
  obtain rfl := hRead
  exact hStored head ((hYields s' hStill).1.symm.trans hHead)

end Shows

end Polling

/-! ### Verifying -/

/-- A request that leaves the store as it is and whose answer the store alone decides. -/
def Request.Reads : Request → Prop
  | .call c => c.isWrite = false
  | .record _ => True
  | _ => False

theorem coversChain_reads (site : Site) : CoversChain site Request.Reads :=
  ⟨⟨fun _ => rfl, fun _ => trivial⟩, fun _ => rfl⟩

/-- On a host whose store stands still, a program that only reads ends in one way. -/
theorem Host.exists_yields {α : Type} (m : Memory) {p : Program α} (hReads : p.Asks Request.Reads) :
    ∃ outcome, Yields answer (fun h => h.store = .ofBackend (.memory m)) p outcome := by
  induction p with
  | done value => exact ⟨_, yields_done value⟩
  | fail e => exact ⟨_, yields_fail e⟩
  | request r next ih =>
      obtain ⟨hRequest, hNext⟩ := (Program.asks_request r next).mp hReads
      cases r with
      | call c =>
          obtain ⟨outcome, hYields⟩ := ih (Memory.answer c m).1 (hNext _)
          refine ⟨outcome, fun h hStore => ?_⟩
          have hAnswer := answer_call hStore c
          rw [Memory.answer_snd_of_not_write hRequest] at hAnswer
          rw [Program.run, hAnswer]
          exact hYields _ rfl
      | record measurement =>
          obtain ⟨outcome, hYields⟩ := ih () (hNext ())
          exact ⟨outcome, fun h hStore => hYields _ hStore⟩
      | freshUuid => cases hRequest
      | freshTransactionId => cases hRequest
      | clock => cases hRequest

/-- How the verification of a chain with a fault at a version ends: with the error that tells the
fault, after the history has shown the roots above the fault and the root at fault if it can be
read, each once. -/
structure Chain.StopsAt (site : Site) (m : Memory) (h : Host) (head v : Version) (found : List Root)
    (e : Error) : Prop where
  fault : Fault site m v found e
  newest : ∀ w, v < w → w ≤ head → site.Linked m w ∧ site.HasRootAt m (w - 1)
  verify : (h.run (Chain.verify site)).1 = .error e
  history : ∃ read, read.map some =
      (downFrom head (head.toNat - v.toNat + found.length)).map (site.rootAt? m) ∧
    ∀ polls, (h.run (Chain.history site polls)).1 = .ok (shown read (some e) polls)

namespace Host

open Chain

variable {h : Host} {head : Version} {read : List Root} {error : Option Error}

/-- A history begins at the newest version and shows the walk from there. -/
theorem yields_history_walk (hStore : h.store = .ofBackend (.memory m))
    (hHead : (h.run (latestVersion site)).1 = .ok head) (hWalk : Walk site m head read error)
    (polls : Nat) : Yields answer (fun h => h.store = .ofBackend (.memory m)) (history site polls)
      (.ok (shown read error polls)) := by
  have hReads : (latestVersion site).Asks Request.Reads :=
    Chain.asks_latestVersion (coversChain_reads site) rfl
  obtain ⟨outcome, hLatest⟩ := exists_yields m hReads
  obtain rfl := (hLatest h hStore).1.symm.trans hHead
  refine (shows site m).yields_readOn_walk hWalk (fun blob hGet => ?_) polls
  have hRoot := hLatest.bind ((shows site m).yields_readRoot hGet)
  cases hParse : parseRoot (.ofVersion head) blob with
  | ok r =>
      rw [hParse] at hRoot
      exact hRoot.bind (yields_done (some r))
  | error e =>
      rw [hParse] at hRoot
      exact hRoot.bind_error

theorem run_verify_walk (hStore : h.store = .ofBackend (.memory m))
    (hHead : (h.run (latestVersion site)).1 = .ok head) (hWalk : Walk site m head read error) :
    (h.run (verify site)).1 = match error with
      | some e => .error e
      | none => .ok read.length := by
  have hHistory := yields_history_walk hStore hHead hWalk longest
  have hBound := hWalk.length_le
  have hSize := head.toNat_lt
  have hAll : shown read error longest = (read, error) := by
    have hLess : read.length < longest := by
      simp only [longest, UInt64.size]
      omega
    rw [shown, if_pos hLess, List.take_of_length_le (Nat.le_of_lt hLess)]
  rw [hAll] at hHistory
  cases error with
  | some e => exact (hHistory.bind (yields_fail e) h hStore).1
  | none => exact (hHistory.bind (yields_done read.length) h hStore).1

/-- Whatever is stored at root paths and as the hint, verifying the chain counts the versions up to
the newest exactly when all of them can be read and are linked. Otherwise it ends with an error at
the newest version that is at fault, and the history shows everything above. -/
theorem verify_tells_fault (hStore : h.store = .ofBackend (.memory m))
    (hHead : (h.run (latestVersion site)).1 = .ok head) :
    (∀ k, (h.run (verify site)).1 = .ok k ↔
      k = head.toNat + 1 ∧ ∀ v ≤ head, site.Linked m v) ∧
    ((¬ ∀ v ≤ head, site.Linked m v) →
      ∃ v ≤ head, ∃ found e, StopsAt site m h head v found e) := by
  have hStored := (shows site m).hasRootAt_of_latestVersion hStore hHead
  obtain ⟨read, error, hWalk⟩ := exists_walk hStored
  have hVerify := run_verify_walk hStore hHead hWalk
  cases error with
  | none =>
      obtain ⟨hLength, hLinked⟩ := hWalk.linked
      refine ⟨fun k => ?_, fun hBroken => absurd hLinked hBroken⟩
      rw [hVerify, hLength]
      exact ⟨fun hSame => ⟨(Except.ok.inj hSame).symm, hLinked⟩, fun hAll => hAll.1 ▸ rfl⟩
  | some e =>
      obtain ⟨v, hv, found, hFault, hLength, hNewest⟩ := hWalk.exists_fault
      refine ⟨fun k => ?_, fun _ => ⟨v, hv, found, e, hFault, hNewest, hVerify, read, ?_, ?_⟩⟩
      · rw [hVerify]
        constructor
        · rintro ⟨⟩
        · exact fun hAll => absurd (fun w hw => hAll.2 w (UInt64.le_trans hw hv)) hFault.not_linked
      · rw [← hLength]
        exact hWalk.map_some
      · exact fun polls => (yields_history_walk hStore hHead hWalk polls h hStore).1

/-- A store with three roots of which the second names no predecessor, and a hint that is no text. -/
def tampered : Memory :=
  let root (previous : Option String) : Storage.Blob :=
    .node (Node.encode { Root.new "definition" with previousRootPath := previous } 0)
  [(RootPath.ofVersion 0, root none), (RootPath.ofVersion 1, root none),
    (RootPath.ofVersion 2, root (some (RootPath.ofVersion 1))), (Hint.path, .bytes [0xff])].foldl
    (fun m entry => m.insert entry.1 entry.2) .empty

/-- Verifying a chain whose second root was replaced fails at one of its three versions. -/
theorem verify_tampered :
    ∃ v ≤ 2, ∃ found e, StopsAt .top tampered (.start (.memory tampered) 0) 2 v found e := by
  have hFound : ((start (.memory tampered) 0).run (latestVersion .top)).1.toOption = some 2 := by
    decide +kernel
  have hHead : ((start (.memory tampered) 0).run (latestVersion .top)).1 = .ok 2 := by
    cases hLatest : ((start (.memory tampered) 0).run (latestVersion .top)).1 with
    | ok head =>
        rw [hLatest] at hFound
        exact congrArg Except.ok (Option.some.inj hFound)
    | error e =>
        rw [hLatest] at hFound
        cases hFound
  have hSecond : (Site.top.rootAt? tampered 1).map (·.previousRootPath) = some none := by
    decide +kernel
  refine (verify_tells_fault rfl hHead).2 fun hLinked => ?_
  obtain ⟨r, hRoot, hPrevious⟩ := hLinked 1 (by decide)
  rw [hRoot, Option.map_some, hPrevious] at hSecond
  cases hSecond

end Host

end SnapshotCatalog
