import SnapshotCatalog.Host
import SnapshotCatalog.Proofs.StoredReads
/-!
Reading the chain while nobody writes. Whoever answers is only known to answer truthfully about
everything but the hint, and to stay within a set of states. The newest version, every root and the
whole history are then determined by the published versions, whatever the hint says.
-/
namespace SnapshotCatalog

open Storage (Memory)

section Yields

variable {α β σ : Type} {answer : (r : Request) → σ → r.Answer × σ} {still : σ → Prop}

/-- From every state in which it is still, the program ends so, and it is still afterwards. -/
def Yields (answer : (r : Request) → σ → r.Answer × σ) (still : σ → Prop) (p : Program α)
    (outcome : Except Error α) : Prop :=
  ∀ s, still s → (p.run answer s).1 = outcome ∧ still (p.run answer s).2

theorem yields_done (value : α) : Yields answer still (.done value) (.ok value) :=
  fun _ hs => ⟨rfl, hs⟩

theorem yields_fail (e : Error) : Yields answer still (.fail e : Program α) (.error e) :=
  fun _ hs => ⟨rfl, hs⟩

theorem yields_ofExcept (e : Except Error α) : Yields answer still (.ofExcept e) e := by
  cases e with
  | ok value => exact yields_done value
  | error e => exact yields_fail e

namespace Yields

variable {p : Program α} {next : α → Program β} {outcome : Except Error β}

theorem bind {value : α} (h : Yields answer still p (.ok value))
    (hNext : Yields answer still (next value) outcome) : Yields answer still (p.bind next) outcome := by
  intro s hs
  have hFirst := h s hs
  rw [Program.run_bind]
  generalize p.run answer s = first at hFirst ⊢
  obtain ⟨result, s'⟩ := first
  obtain ⟨rfl, hs'⟩ := hFirst
  exact hNext s' hs'

theorem bind_error {e : Error} (h : Yields answer still p (.error e)) :
    Yields answer still (p.bind next) (.error e) := by
  intro s hs
  have hFirst := h s hs
  rw [Program.run_bind]
  generalize p.run answer s = first at hFirst ⊢
  obtain ⟨result, s'⟩ := first
  obtain ⟨rfl, hs'⟩ := hFirst
  exact ⟨rfl, hs'⟩

/-- However the first part ends, the second ends in one way. -/
theorem bind_any (hFirst : ∀ s, still s → ∃ value, (p.run answer s).1 = .ok value ∧
      still (p.run answer s).2)
    (hNext : ∀ value, Yields answer still (next value) outcome) :
    Yields answer still (p.bind next) outcome := by
  intro s hs
  have hStart := hFirst s hs
  rw [Program.run_bind]
  generalize p.run answer s = first at hStart ⊢
  obtain ⟨result, s'⟩ := first
  obtain ⟨value, rfl, hs'⟩ := hStart
  exact hNext value s' hs'

theorem attempt {result : Except Error α} (h : Yields answer still p result) :
    Yields answer still p.attempt (.ok result) := by
  intro s hs
  obtain ⟨hResult, hs'⟩ := h s hs
  rw [Program.run_attempt, hResult]
  exact ⟨rfl, hs'⟩

end Yields

theorem yields_call {c : Storage.Call} {result : c.Answer}
    (h : ∀ s, still s → (answer (.call c) s).1 = result ∧ still (answer (.call c) s).2) :
    Yields answer still (.call c) result := by
  intro s hs
  obtain ⟨rfl, hs'⟩ := h s hs
  exact yields_ofExcept _ _ hs'

/-- A program that only makes requests which keep the answerer still keeps it still. -/
theorem still_run {kind : Request → Prop} {p : Program α}
    (hKind : ∀ r s, kind r → still s → still (answer r s).2) (h : p.Asks kind) {s : σ}
    (hs : still s) : still (p.run answer s).2 := by
  induction p generalizing s with
  | done value => exact hs
  | fail e => exact hs
  | request r next ih =>
      obtain ⟨hRequest, hNext⟩ := (Program.asks_request r next).mp h
      exact ih _ (hNext _) (hKind r s hRequest hs)

end Yields

/-- Whoever answers, answers truthfully about everything but the hint, and nothing that is read or
recorded changes that. -/
structure Shows {σ : Type} (answer : (r : Request) → σ → r.Answer × σ) (still : σ → Prop)
    (site : Site) (m : Memory) : Prop where
  get : ∀ key s, key ≠ site.resolve Hint.path → still s →
    (answer (.call (.get key)) s).1 = (Memory.answer (.get key) m).1 ∧
      still (answer (.call (.get key)) s).2
  head : ∀ key s, key ≠ site.resolve Hint.path → still s →
    (answer (.call (.head key)) s).1 = (Memory.answer (.head key) m).1 ∧
      still (answer (.call (.head key)) s).2
  hint : ∀ s, still s → still (answer (.call (.get (site.resolve Hint.path))) s).2
  record : ∀ measurement s, still s → still (answer (.record measurement) s).2

namespace Shows

variable {α σ : Type} {answer : (r : Request) → σ → r.Answer × σ} {still : σ → Prop} {site : Site}
  {m : Memory} {published : List Publication}

theorem yields_record (h : Shows answer still site m) (measurement : Measurement) :
    Yields answer still (.record measurement) (.ok ()) :=
  fun s hs => ⟨rfl, h.record measurement s hs⟩

/-- Whoever answers truthfully lets a program find what is stored. -/
theorem yields_of_finds {p : Program α} {outcome : Except Error α}
    (h : Shows answer still site m) (hFinds : Finds site m p outcome) :
    Yields answer still p outcome := by
  intro s hs
  induction hFinds generalizing s with
  | done value => exact ⟨rfl, hs⟩
  | fail e => exact ⟨rfl, hs⟩
  | @get key blob next outcome hKey hGet _ _ ih =>
      obtain ⟨hAnswer, hStill⟩ := h.get key s hKey hs
      simp only [Memory.answer, hGet] at hAnswer
      rw [Program.run]
      generalize answer (.call (.get key)) s = reply at hAnswer hStill
      obtain ⟨_, s'⟩ := reply
      obtain rfl := hAnswer
      exact ih s' hStill

/-- Whatever the hint says, it names some version in the end. -/
theorem run_readHint (h : Shows answer still site m) (s : σ) (hs : still s) :
    ∃ v, ((Hint.read site).run answer s).1 = .ok v ∧ still ((Hint.read site).run answer s).2 := by
  have hFallback (reason : FallbackReason) : Yields answer still (Hint.fallback reason) (.ok 0) :=
    (h.yields_record _).bind (yields_done 0)
  have hRead : still ((site.read Hint.path).run answer s).2 := by
    rw [Site.read, site.key_hint]
    exact (yields_ofExcept _ _ (h.hint s hs)).2
  rw [Hint.read, Program.bind_eq, Program.run_bind, Program.run_attempt]
  generalize (site.read Hint.path).run answer s = read at hRead ⊢
  obtain ⟨result, s'⟩ := read
  cases result with
  | error e => exact ⟨0, hFallback _ s' hRead⟩
  | ok blob =>
      dsimp only
      split
      · next version _ => exact ⟨version, rfl, hRead⟩
      · exact ⟨0, hFallback _ s' hRead⟩

open Chain

theorem yields_hasRoot (h : Shows answer still site m) (v : Version) :
    Yields answer still (hasRoot site v)
      (.ok (m.contains (site.resolve (RootPath.ofVersion v)))) := by
  have hHead : Yields answer still (site.head (RootPath.ofVersion v))
      (Memory.answer (.head (site.resolve (RootPath.ofVersion v))) m).1 := by
    rw [Site.head, site.key_root]
    exact yields_call fun s => h.head _ s (site.resolve_ne_hint (RootPath.ofVersion_ne_hint v))
  have hSome : (m.get? (site.resolve (RootPath.ofVersion v))).isSome =
      ((m.get? (site.resolve (RootPath.ofVersion v))).map fun blob =>
        (⟨site.resolve (RootPath.ofVersion v), blob.size⟩ : Storage.ObjectMeta)).isSome := by simp
  rw [TextMap.contains, hSome]
  exact hHead.bind (yields_done _)

section Chain

variable (h : Shows answer still site m) (hRecords : Records site m published)

include h hRecords

theorem yields_hasRoot_eq (v : Version) :
    Yields answer still (hasRoot site v) (.ok (decide (v.toNat < published.length))) := by
  have hRoot := h.yields_hasRoot v
  rwa [show m.contains (site.resolve (RootPath.ofVersion v)) = decide (v.toNat < published.length)
    from Bool.eq_iff_iff.mpr (by rw [hRecords.contains_root_iff, decide_eq_true_iff])] at hRoot

/-- A climb from a published version ends at the newest one. What may still be climbed is counted
down from all that there is above, so it never goes past the last of all versions. -/
theorem yields_climb {top : Version} (hTop : top.toNat + 1 = published.length) {left : Nat}
    {v : Version} (hv : v.toNat ≤ top.toNat) (hLeft : v.toNat + left + 1 = UInt64.size)
    (probes : Nat) :
    ∃ spent, Yields answer still (climb site v probes left) (.ok (top, spent)) := by
  have hBound : top.toNat < UInt64.size := top.toNat_lt
  induction left generalizing v probes with
  | zero =>
      have hSame : v = top := UInt64.toNat_inj.mp (by omega)
      exact ⟨probes, hSame ▸ yields_done _⟩
  | succ left ih =>
      have hNext : (v + 1).toNat = v.toNat + 1 := UInt64.toNat_add_one (by omega)
      have hProbe := h.yields_hasRoot_eq hRecords (v + 1)
      rw [hNext] at hProbe
      by_cases hMore : v.toNat + 1 < published.length
      · rw [decide_eq_true hMore] at hProbe
        obtain ⟨spent, hSpent⟩ := ih (by rw [hNext]; omega) (by rw [hNext]; omega) (probes + 1)
        refine ⟨spent, hProbe.bind ?_⟩
        rw [if_pos rfl]
        exact hSpent
      · rw [decide_eq_false hMore] at hProbe
        have hSame : v = top := UInt64.toNat_inj.mp (by omega)
        refine ⟨probes + 1, hProbe.bind ?_⟩
        rw [if_neg Bool.false_ne_true, hSame]
        exact yields_done _

theorem yields_climbFrom {top v : Version} (hTop : top.toNat + 1 = published.length)
    (hv : v.toNat ≤ top.toNat) (probes : Nat) :
    Yields answer still (climbFrom site v probes) (.ok top) := by
  have hBound : v.toNat < UInt64.size := v.toNat_lt
  have hLeft : v.toNat + versionsAfter v + 1 = UInt64.size := by
    rw [versionsAfter]
    omega
  obtain ⟨spent, hSpent⟩ := h.yields_climb hRecords hTop hv hLeft probes
  rw [climbFrom]
  exact hSpent.bind ((h.yields_record _).bind (yields_done top))

/-- Whatever the hint, the search for the newest version finds it. -/
theorem yields_latestFrom {top : Version} (hTop : top.toNat + 1 = published.length)
    (hint : Version) : Yields answer still (latestFrom site hint) (.ok top) := by
  have hProbe := h.yields_hasRoot_eq hRecords hint
  rw [latestFrom]
  by_cases hStored : hint.toNat < published.length
  · rw [decide_eq_true hStored] at hProbe
    apply hProbe.bind
    rw [if_pos rfl]
    exact h.yields_climbFrom hRecords hTop (by omega) 1
  · rw [decide_eq_false hStored] at hProbe
    have hNonzero : hint ≠ 0 := by
      rintro rfl
      rw [UInt64.toNat_zero] at hStored
      omega
    have hZero := h.yields_hasRoot_eq hRecords 0
    rw [UInt64.toNat_zero, decide_eq_true (by omega : 0 < published.length)] at hZero
    apply hProbe.bind
    rw [if_neg Bool.false_ne_true, if_neg hNonzero]
    refine (h.yields_record _).bind (hZero.bind ?_)
    rw [if_pos rfl]
    exact h.yields_climbFrom hRecords hTop (by rw [UInt64.toNat_zero]; omega) 2

/-- Without any version the search says so, whatever the hint. -/
theorem yields_latestFrom_of_none (hNone : published = []) (hint : Version) :
    Yields answer still (latestFrom site hint) (.error (.objectNotFound .uninitialized)) := by
  have hAbsent (v : Version) : Yields answer still (hasRoot site v) (.ok false) := by
    have hProbe := h.yields_hasRoot_eq hRecords v
    rwa [hNone, List.length_nil, decide_eq_false (Nat.not_lt_zero _)] at hProbe
  have hEnd (probes : Nat) : Yields answer still (notInitialized probes : Program Version)
      (.error (.objectNotFound .uninitialized)) :=
    (h.yields_record _).bind (yields_fail _)
  rw [latestFrom]
  apply (hAbsent hint).bind
  rw [if_neg Bool.false_ne_true]
  split
  · exact hEnd 1
  · refine (h.yields_record _).bind ((hAbsent 0).bind ?_)
    rw [if_neg Bool.false_ne_true]
    exact hEnd 2

/-- The newest version does not depend on the hint. -/
theorem yields_latestVersion {top : Version} (hTop : top.toNat + 1 = published.length) :
    Yields answer still (latestVersion site) (.ok top) :=
  .bind_any h.run_readHint fun hint => h.yields_latestFrom hRecords hTop hint

theorem yields_latestVersion_of_none (hNone : published = []) :
    Yields answer still (latestVersion site) (.error (.objectNotFound .uninitialized)) :=
  .bind_any h.run_readHint fun hint => h.yields_latestFrom_of_none hRecords hNone hint

theorem yields_latestRoot {top : Version} (hTop : top.toNat + 1 = published.length)
    {p : Publication} (hp : published[top.toNat]? = some p) :
    Yields answer still (latestRoot site) (.ok p.root) :=
  (h.yields_latestVersion hRecords hTop).bind (h.yields_of_finds (hRecords.finds_readRoot hp))

/-- Below a root the history goes on with all the roots of earlier versions. -/
theorem yields_readOn {i polls : Nat} {p : Publication} (hp : published[i]? = some p)
    (hPolls : i < polls) :
    Yields answer still (readOn site polls (.after p.root))
      (.ok ((published.take i).reverse.map (·.root), none)) := by
  induction i generalizing polls p with
  | zero =>
      obtain ⟨polls, rfl⟩ := Nat.exists_eq_succ_of_ne_zero (Nat.ne_of_gt hPolls)
      have hPoll : Yields answer still (poll site (.after p.root)) (.ok none) :=
        (h.yields_of_finds (hRecords.finds_readPrevious_first hp)).bind (yields_done none)
      exact hPoll.attempt.bind (yields_done _)
  | succ i ih =>
      obtain ⟨polls, rfl⟩ := Nat.exists_eq_succ_of_ne_zero (Nat.ne_of_gt (Nat.zero_lt_of_lt hPolls))
      have hLength := (List.getElem?_eq_some_iff.mp hp).1
      have hBefore : published[i]? = some published[i] := List.getElem?_eq_getElem (by omega)
      have hPoll : Yields answer still (poll site (.after p.root)) (.ok (some published[i].root)) :=
        (h.yields_of_finds (hRecords.finds_readPrevious hBefore hp)).bind (yields_done _)
      rw [List.take_add_one, hBefore, Option.toList_some, List.reverse_concat, List.map_cons]
      exact hPoll.attempt.bind ((ih hBefore (Nat.lt_of_succ_lt_succ hPolls)).bind (yields_done _))

/-- The history is all published roots, the newest first. -/
theorem yields_history {polls : Nat} (hSome : published ≠ []) (hPolls : published.length < polls) :
    Yields answer still (history site polls) (.ok (published.reverse.map (·.root), none)) := by
  obtain ⟨polls, rfl⟩ := Nat.exists_eq_succ_of_ne_zero (Nat.ne_of_gt (Nat.zero_lt_of_lt hPolls))
  have hLength := List.length_pos_iff.mpr hSome
  have hCount := hRecords.countable
  have hTop : (UInt64.ofNat (published.length - 1)).toNat = published.length - 1 :=
    UInt64.toNat_ofNat_of_lt' (by omega)
  have hLast : published[published.length - 1]? = some (published.getLast hSome) := by
    rw [← List.getLast?_eq_getElem?, List.getLast?_eq_some_getLast hSome]
  have hPoll : Yields answer still (poll site .head) (.ok (some (published.getLast hSome).root)) :=
    (h.yields_latestRoot hRecords (by rw [hTop]; omega) (by rw [hTop]; exact hLast)).bind
      (yields_done _)
  have hBound : published.length - 1 < polls := by omega
  have hRest := h.yields_readOn hRecords hLast hBound
  have hAll : published.reverse = published.getLast hSome ::
      (published.take (published.length - 1)).reverse := by
    have hEnd := congrArg List.reverse (List.dropLast_concat_getLast hSome)
    rw [List.reverse_concat, List.dropLast_eq_take] at hEnd
    exact hEnd.symm
  rw [hAll, List.map_cons]
  exact hPoll.attempt.bind (hRest.bind (yields_done _))

/-- Verifying the chain counts the published versions. -/
theorem yields_verify (hSome : published ≠ []) :
    Yields answer still (verify site) (.ok published.length) := by
  have hLongest : published.length < longest := Nat.lt_succ_of_le hRecords.countable
  have hHistory := h.yields_history hRecords hSome hLongest
  have hCounted : (published.reverse.map (·.root)).length = published.length := by
    rw [List.length_map, List.length_reverse]
  have hCount : Yields answer still (.done (published.reverse.map (·.root)).length)
      (.ok published.length) := by
    rw [hCounted]
    exact yields_done _
  exact hHistory.bind hCount

/-- A published version is found by its number. -/
theorem yields_rootForVersion {v : Version} {found : Publication}
    (hFound : published[v.toNat]? = some found) :
    Yields answer still (rootForVersion site v) (.ok found.root) := by
  have hLength := (List.getElem?_eq_some_iff.mp hFound).1
  have hCount := hRecords.countable
  have hTop : (UInt64.ofNat (published.length - 1)).toNat = published.length - 1 :=
    UInt64.toNat_ofNat_of_lt' (by omega)
  rw [rootForVersion, Search.run_eq]
  exact (h.yields_latestVersion hRecords (by rw [hTop]; omega)).bind
    (h.yields_of_finds (hRecords.finds_runFrom hFound (by rw [hTop]; omega) (by rw [hTop]; omega)))

end Chain

end Shows

/-- A store that logs its calls and refuses none answers as memory does. -/
theorem Storage.Tracing.answer_eq {t : Tracing} (hRefusals : t.refusals = []) (c : Call) :
    Tracing.answer c t = ((Memory.answer c t.objects).1,
      { t with objects := (Memory.answer c t.objects).2, log := t.log ++ [.ofCall c] }) := by
  have hNone : t.refuses c = false := by
    rw [Tracing.refuses, hRefusals]
    rfl
  rw [Tracing.answer, hNone]
  cases c with
  | list start =>
      rw [Memory.answer, TextMap.scan_eq_withStart]
      rfl
  | _ => rfl

/-- A host with a store for itself answers calls as that store does. -/
theorem Host.answer_backend {h : Host} {b : Storage.Backend} (hStore : h.store = .ofBackend b)
    (c : Storage.Call) :
    answer (.call c) h = ((b.answer c).1, { h with store := .ofBackend (b.answer c).2 }) := by
  rw [answer, hStore]
  cases c with
  | put key blob mode =>
      rw [Storage.Contended.answer, if_neg fun hDenied => Bool.false_ne_true hDenied.2]
      rfl
  | get key => rfl
  | delete key => rfl
  | list start => rfl
  | head key => rfl

/-- A host whose store is in memory answers calls as that store does. -/
theorem Host.answer_call {h : Host} {m : Memory} (hStore : h.store = .ofBackend (.memory m))
    (c : Storage.Call) : answer (.call c) h =
      ((Memory.answer c m).1, { h with store := .ofBackend (.memory (Memory.answer c m).2) }) :=
  answer_backend hStore c

/-- A host whose store is in memory shows what is stored there. -/
theorem Host.shows (site : Site) (m : Memory) :
    Shows answer (fun h => h.store = .ofBackend (.memory m)) site m where
  get key h _ hStore := by
    rw [answer_call hStore, Memory.answer_get_snd]
    exact ⟨rfl, rfl⟩
  head key h _ hStore := by
    rw [answer_call hStore]
    exact ⟨rfl, rfl⟩
  hint h hStore := by
    rw [answer_call hStore, Memory.answer_get_snd]
  record _ _ hStore := hStore

end SnapshotCatalog
