import SnapshotCatalog.Proofs.Courses
import SnapshotCatalog.Proofs.HeadLookup
import SnapshotCatalog.Proofs.HintBound
/-!
What it costs to find the newest version while nobody writes, counted in existence probes. A search
probes for every version from the one it begins at up to the first that is absent, so the hint fixes the
cost: the nearer it is to the newest version the cheaper the search, and a hint that names no stored
version costs one probe more than none. The count that a search records is the number of its probes.
-/
namespace SnapshotCatalog

open Storage (Memory)
open Program

namespace Exchange

/-- Whether an exchange is an existence probe. -/
def isProbe : Exchange → Bool
  | ⟨.call (.head _), _⟩ => true
  | _ => false

/-- How many existence probes there are among exchanges. -/
def probes (trace : List Exchange) : Nat := trace.countP isProbe

/-- The number of probes that an exchange records. -/
def recordedProbes? : Exchange → Option Nat
  | ⟨.record (.rootProbes count), _⟩ => some count
  | _ => none

/-- The numbers of probes that exchanges record, in their order. -/
def recordedProbes (trace : List Exchange) : List Nat := trace.filterMap recordedProbes?

@[simp] theorem probes_append (before after : List Exchange) :
    probes (before ++ after) = probes before + probes after :=
  List.countP_append

@[simp] theorem recordedProbes_append (before after : List Exchange) :
    recordedProbes (before ++ after) = recordedProbes before ++ recordedProbes after :=
  List.filterMap_append

end Exchange

section Costs

variable {α β σ : Type} {answer : (r : Request) → σ → r.Answer × σ} {still : σ → Prop}

/-- From every state in which it is still, the program ends so, after so many probes and with these
numbers of probes recorded. -/
structure Costs (answer : (r : Request) → σ → r.Answer × σ) (still : σ → Prop) (p : Program α)
    (outcome : Except Error α) (probes : Nat) (recorded : List Nat) : Prop where
  yields : Yields answer still p outcome
  probes : ∀ s, still s → Exchange.probes (p.exchanges answer s) = probes
  recorded : ∀ s, still s → Exchange.recordedProbes (p.exchanges answer s) = recorded

theorem costs_done (value : α) : Costs answer still (.done value) (.ok value) 0 [] :=
  ⟨yields_done value, fun _ _ => rfl, fun _ _ => rfl⟩

/-- A sequence costs what its parts cost. -/
theorem Costs.bind {p : Program α} {next : α → Program β} {value : α} {outcome : Except Error β}
    {first second probes : Nat} {early late recorded : List Nat}
    (h : Costs answer still p (.ok value) first early)
    (hNext : Costs answer still (next value) outcome second late) (hProbes : first + second = probes)
    (hRecorded : early ++ late = recorded) : Costs answer still (p.bind next) outcome probes recorded := by
  refine ⟨h.yields.bind hNext.yields, ?_, ?_⟩
  · intro s hs
    obtain ⟨hValue, hAfter⟩ := h.yields s hs
    rw [exchanges_bind hValue, Exchange.probes_append, h.probes s hs, hNext.probes _ hAfter, hProbes]
  · intro s hs
    obtain ⟨hValue, hAfter⟩ := h.yields s hs
    rw [exchanges_bind hValue, Exchange.recordedProbes_append, h.recorded s hs,
      hNext.recorded _ hAfter, hRecorded]

end Costs

namespace Hint

/-- The version that was found at the hint, if one was found there. -/
def found? : Except Error Storage.Blob → Option Version
  | .ok blob => version? blob.data
  | .error _ => none

/-- Why what was found at the hint is of no use. -/
def uselessness : Except Error Storage.Blob → FallbackReason
  | .ok _ => .unparsable
  | .error e => if e.isNotFound then .missing else .unreadable

/-- Reading the hint is one read of its object. -/
theorem read_eq (site : Site) : read site = .request (.call (.get (site.resolve path))) fun answer =>
    match found? answer with
    | some version => .done version
    | none => fallback (uselessness answer) := by
  rw [read, Site.read, site.key_hint]
  refine congrArg (Program.request _) (funext fun answer => ?_)
  cases answer with
  | error e => rfl
  | ok blob =>
      show (match version? blob.data with
        | some version => (.done version : Program Version)
        | none => fallback .unparsable) = _
      rw [found?]
      cases version? blob.data <;> rfl

end Hint

/-- How many probes a search for the newest version takes that finds this at the hint. -/
def Chain.probesToFind (newest : Version) : Option Version → Nat
  | none => newest.toNat + 2
  | some hint => if hint ≤ newest then newest.toNat - hint.toNat + 2 else newest.toNat + 3

namespace Shows

open Chain

variable {σ : Type} {answer : (r : Request) → σ → r.Answer × σ} {still : σ → Prop} {site : Site}
  {m : Memory} {newest hint : Version} (h : Shows answer still site m)

include h

/-- Recording a number of probes costs none. -/
theorem costs_recordProbes (count : Nat) :
    Costs answer still (.record (.rootProbes count)) (.ok ()) 0 [count] :=
  ⟨h.yields_record _, fun _ _ => rfl, fun _ _ => rfl⟩

theorem costs_recordFallback (reason : FallbackReason) :
    Costs answer still (.record (.hintFallback reason)) (.ok ()) 0 [] :=
  ⟨h.yields_record _, fun _ _ => rfl, fun _ _ => rfl⟩

/-- The hint names what is found there, or 0, and reading it takes no probe. -/
theorem run_readHint_eq (s : σ) (hs : still s) :
    ((Hint.read site).run answer s).1 =
        .ok ((Hint.found? (answer (.call (.get (site.resolve Hint.path))) s).1).getD 0) ∧
      still ((Hint.read site).run answer s).2 ∧
      Exchange.probes ((Hint.read site).exchanges answer s) = 0 ∧
      Exchange.recordedProbes ((Hint.read site).exchanges answer s) = [] := by
  have hRead := h.hint s hs
  rw [Hint.read_eq, run, exchanges]
  generalize answer (.call (.get (site.resolve Hint.path))) s = reply at hRead ⊢
  obtain ⟨found, s'⟩ := reply
  dsimp only
  cases Hint.found? found with
  | some version => exact ⟨rfl, hRead, rfl, rfl⟩
  | none => exact ⟨rfl, h.record _ s' hRead, rfl, rfl⟩

variable (hHead : site.HasHead m newest)

include hHead

theorem costs_hasRoot (v : Version) :
    Costs answer still (hasRoot site v) (.ok (decide (v ≤ newest))) 1 [] := by
  have hContains : m.contains (site.resolve (RootPath.ofVersion v)) = decide (v ≤ newest) :=
    Bool.eq_iff_iff.mpr ((hHead.contains_iff v).trans decide_eq_true_iff.symm)
  have hTrace (s : σ) : ∃ found, (hasRoot site v).exchanges answer s =
      [⟨.call (.head (site.resolve (RootPath.ofVersion v))), found⟩] := by
    obtain ⟨found, hTrace, -⟩ := ran_hasRoot (ran_exchanges answer (hasRoot site v) s)
    exact ⟨found, hTrace⟩
  refine ⟨hContains ▸ h.yields_hasRoot v, ?_, ?_⟩
  · intro s _
    obtain ⟨found, hTrace⟩ := hTrace s
    rw [hTrace]
    rfl
  · intro s _
    obtain ⟨found, hTrace⟩ := hTrace s
    rw [hTrace]
    rfl

/-- A climb probes once for each version above the one it begins at, and once for the first that is
absent. The induction is on how many versions are above. -/
theorem costs_climb (hLast : newest.toNat + 1 < UInt64.size) {above left : Nat} {v : Version}
    (hAbove : v.toNat + above = newest.toNat) (hLeft : v.toNat + left + 1 = UInt64.size)
    (probes : Nat) : Costs answer still (climb site v probes left)
      (.ok (newest, probes + above + 1)) (above + 1) [] := by
  induction above generalizing left v probes with
  | zero =>
      obtain ⟨left, rfl⟩ := Nat.exists_eq_succ_of_ne_zero (by omega : left ≠ 0)
      have hSame : v = newest := UInt64.toNat_inj.mp hAbove
      subst hSame
      have hNext : (v + 1).toNat = v.toNat + 1 := UInt64.toNat_add_one (by omega)
      have hAbsent : ¬ v + 1 ≤ v := by
        rw [UInt64.le_iff_toNat_le, hNext]
        omega
      have hProbe := h.costs_hasRoot hHead (v + 1)
      rw [decide_eq_false hAbsent] at hProbe
      apply hProbe.bind _ (Nat.add_zero 1) (List.append_nil [])
      rw [if_neg Bool.false_ne_true]
      exact costs_done _
  | succ above ih =>
      obtain ⟨left, rfl⟩ := Nat.exists_eq_succ_of_ne_zero (by omega : left ≠ 0)
      have hNext : (v + 1).toNat = v.toNat + 1 := UInt64.toNat_add_one (by omega)
      have hStored : v + 1 ≤ newest := by
        rw [UInt64.le_iff_toNat_le, hNext]
        omega
      have hProbe := h.costs_hasRoot hHead (v + 1)
      rw [decide_eq_true hStored] at hProbe
      apply hProbe.bind _ (by omega : 1 + (above + 1) = above + 1 + 1) (List.append_nil [])
      rw [if_pos rfl, show probes + (above + 1) + 1 = probes + 1 + above + 1 by omega]
      apply ih <;> omega

theorem costs_climbFrom (hLast : newest.toNat + 1 < UInt64.size) {above : Nat} {v : Version}
    (hAbove : v.toNat + above = newest.toNat) (probes : Nat) :
    Costs answer still (climbFrom site v probes) (.ok newest) (above + 1) [probes + above + 1] := by
  have hBound : v.toNat < UInt64.size := v.toNat_lt
  have hLeft : v.toNat + versionsAfter v + 1 = UInt64.size := by
    rw [versionsAfter]
    omega
  rw [climbFrom]
  apply (h.costs_climb hHead hLast hAbove hLeft probes).bind _ (Nat.add_zero _) (List.nil_append _)
  exact (h.costs_recordProbes _).bind (costs_done newest) rfl rfl

/-- A search from a version that is stored. -/
theorem costs_latestFrom_of_le (hLast : newest.toNat + 1 < UInt64.size) (hHint : hint ≤ newest) :
    Costs answer still (latestFrom site hint) (.ok newest) (newest.toNat - hint.toNat + 2)
      [newest.toNat - hint.toNat + 2] := by
  have hBelow := UInt64.le_iff_toNat_le.mp hHint
  have hProbe := h.costs_hasRoot hHead hint
  rw [decide_eq_true hHint] at hProbe
  have hCount : newest.toNat - hint.toNat + 2 = 1 + (newest.toNat - hint.toNat) + 1 := by omega
  rw [latestFrom, hCount]
  apply hProbe.bind _ (Nat.add_assoc 1 _ 1).symm (List.nil_append _)
  rw [if_pos rfl]
  exact h.costs_climbFrom hHead hLast (Nat.add_sub_cancel' hBelow) 1

/-- A search from a version that is not stored starts again at version 0. -/
theorem costs_latestFrom_of_lt (hLast : newest.toNat + 1 < UInt64.size) (hHint : newest < hint) :
    Costs answer still (latestFrom site hint) (.ok newest) (newest.toNat + 3) [newest.toNat + 3] := by
  have hAbove := UInt64.lt_iff_toNat_lt.mp hHint
  have hNonzero : hint ≠ 0 := by
    rintro rfl
    exact absurd hAbove (Nat.not_lt_zero _)
  have hAbsent : ¬ hint ≤ newest := by
    rw [UInt64.le_iff_toNat_le]
    omega
  have hProbe := h.costs_hasRoot hHead hint
  rw [decide_eq_false hAbsent] at hProbe
  have hZero := h.costs_hasRoot hHead 0
  rw [decide_eq_true UInt64.zero_le] at hZero
  have hCount : newest.toNat + 3 = 2 + newest.toNat + 1 := by omega
  rw [latestFrom, hCount]
  apply hProbe.bind _ (by omega : 1 + (newest.toNat + 2) = 2 + newest.toNat + 1) (List.nil_append _)
  rw [if_neg Bool.false_ne_true, if_neg hNonzero]
  apply (h.costs_recordFallback .stale).bind _ (Nat.zero_add _) (List.nil_append _)
  apply hZero.bind _ (by omega : 1 + (newest.toNat + 1) = newest.toNat + 2) (List.nil_append _)
  rw [if_pos rfl]
  exact h.costs_climbFrom hHead hLast (Nat.zero_add _) 2

/-- Whatever is found at the hint, it tells the cost of the search that follows. -/
theorem costs_latestFrom (hLast : newest.toNat + 1 < UInt64.size) (found : Option Version) :
    Costs answer still (latestFrom site (found.getD 0)) (.ok newest) (probesToFind newest found)
      [probesToFind newest found] := by
  cases found with
  | none => exact h.costs_latestFrom_of_le hHead hLast UInt64.zero_le
  | some hint =>
      rw [probesToFind]
      by_cases hHint : hint ≤ newest
      · rw [if_pos hHint]
        exact h.costs_latestFrom_of_le hHead hLast hHint
      · rw [if_neg hHint]
        exact h.costs_latestFrom_of_lt hHead hLast (UInt64.not_le.mp hHint)

/-- The search ends at the newest version, and records how many probes it took. -/
theorem run_latestVersion (hLast : newest.toNat + 1 < UInt64.size) (s : σ) (hs : still s) :
    ((latestVersion site).run answer s).1 = .ok newest ∧
      Exchange.probes ((latestVersion site).exchanges answer s) = probesToFind newest
        (Hint.found? (answer (.call (.get (site.resolve Hint.path))) s).1) ∧
      Exchange.recordedProbes ((latestVersion site).exchanges answer s) =
        [Exchange.probes ((latestVersion site).exchanges answer s)] := by
  have hEnds : Yields answer still (latestVersion site) (.ok newest) :=
    .bind_any h.run_readHint fun hint => (h.costs_latestFrom hHead hLast (some hint)).yields
  obtain ⟨hFound, hAfter, hNone, hSilent⟩ := h.run_readHint_eq s hs
  have hCosts := h.costs_latestFrom hHead hLast
    (Hint.found? (answer (.call (.get (site.resolve Hint.path))) s).1)
  have hProbes : Exchange.probes ((latestVersion site).exchanges answer s) = probesToFind newest
      (Hint.found? (answer (.call (.get (site.resolve Hint.path))) s).1) := by
    rw [latestVersion, bind_eq, exchanges_bind hFound, Exchange.probes_append, hNone, Nat.zero_add]
    exact hCosts.probes _ hAfter
  refine ⟨(hEnds s hs).1, hProbes, ?_⟩
  rw [hProbes, latestVersion, bind_eq, exchanges_bind hFound, Exchange.recordedProbes_append, hSilent,
    List.nil_append]
  exact hCosts.recorded _ hAfter

end Shows

/-- The hint never runs ahead of the chain, and it fixes the cost of a search. Whatever clients do, and
however late or vainly they write the hint, it is absent or the text of a version that is stored. Where
the roots are those of the versions up to the newest, which is not the last of all, and nobody writes
meanwhile, the search finds it whatever the hint: with one probe for every version from the hinted one up
and one more, from version 0 when there is no readable hint, and with one in addition when the hint names
a version that is not stored. That number is recorded. -/
theorem Hint.bounded_by_chain (site : Site) :
    (∀ s, System.Reachable site s → s.store.get? (site.resolve path) = none ∨ ∃ v : Version,
      s.store.get? (site.resolve path) = some (.bytes (Text.bytes (Numeral.ofNat v.toNat))) ∧
        s.store.contains (site.resolve (RootPath.ofVersion v)) = true) ∧
    ∀ {σ : Type} {answer : (r : Request) → σ → r.Answer × σ} {still : σ → Prop} {m : Memory}
      {newest : Version}, Shows answer still site m → site.HasHead m newest →
      newest.toNat + 1 < UInt64.size → ∀ s, still s →
        ((Chain.latestVersion site).run answer s).1 = .ok newest ∧
        (∀ hint, found? (answer (.call (.get (site.resolve path))) s).1 = some hint → hint ≤ newest →
          Exchange.probes ((Chain.latestVersion site).exchanges answer s) =
            newest.toNat - hint.toNat + 2) ∧
        (found? (answer (.call (.get (site.resolve path))) s).1 = none →
          Exchange.probes ((Chain.latestVersion site).exchanges answer s) = newest.toNat + 2) ∧
        (∀ hint, found? (answer (.call (.get (site.resolve path))) s).1 = some hint → newest < hint →
          Exchange.probes ((Chain.latestVersion site).exchanges answer s) = newest.toNat + 3) ∧
        Exchange.recordedProbes ((Chain.latestVersion site).exchanges answer s) =
          [Exchange.probes ((Chain.latestVersion site).exchanges answer s)] := by
  constructor
  · intro s hReach
    cases hHint : s.store.get? (site.resolve path) with
    | none => exact .inl rfl
    | some blob =>
        obtain ⟨v, rfl, hStored⟩ := hReach.held blob hHint
        exact .inr ⟨v, rfl, hStored⟩
  · intro σ answer still m newest hShows hHead hLast s hs
    obtain ⟨hEnds, hProbes, hRecorded⟩ := hShows.run_latestVersion hHead hLast s hs
    refine ⟨hEnds, ?_, ?_, ?_, hRecorded⟩
    · intro hint hFound hBelow
      rw [hProbes, hFound, Chain.probesToFind, if_pos hBelow]
    · intro hFound
      rw [hProbes, hFound, Chain.probesToFind]
    · intro hint hFound hAhead
      rw [hProbes, hFound, Chain.probesToFind, if_neg (UInt64.not_le.mpr hAhead)]

/-- A host whose store is in memory finds the hint that is stored. -/
theorem Host.found?_hint {site : Site} {h : Host} {m : Memory} {blob : Storage.Blob}
    (hStore : h.store = .ofBackend (.memory m)) (hHint : m.get? (site.resolve Hint.path) = some blob) :
    Hint.found? (answer (.call (.get (site.resolve Hint.path))) h).1 = Hint.version? blob.data := by
  rw [answer_call hStore]
  simp only [Memory.answer, hHint]
  rfl

/-- The sample lakehouse, with a text in place of its hint. -/
def Session.hinted (text : String) : Host :=
  .start (.memory (afterSample.store.insert (Site.top.resolve Hint.path) (.bytes (Text.bytes text)))) 5

/-- The search for version 1 from four hints: the newest version, an old one, one that does not exist
with a blank before it, and no version at all. -/
theorem Hint.bounded_by_chain_afterSample :
    (∃ v, Session.afterSample.store.get? (Site.top.resolve path) = some (content v) ∧
      Session.afterSample.store.contains (Site.top.resolve (RootPath.ofVersion v)) = true) ∧
    Exchange.probes ((Chain.latestVersion .top).exchanges Host.answer (Session.hinted "1")) = 2 ∧
    Exchange.probes ((Chain.latestVersion .top).exchanges Host.answer (Session.hinted "0")) = 3 ∧
    Exchange.probes ((Chain.latestVersion .top).exchanges Host.answer (Session.hinted " 9")) = 4 ∧
    Exchange.probes ((Chain.latestVersion .top).exchanges Host.answer (Session.hinted "one")) = 3 := by
  obtain ⟨hHeld, hSearch⟩ := bounded_by_chain .top
  have hCost (text : String) := hSearch (Host.shows .top (Session.afterSample.store.insert
    (Site.top.resolve path) (.bytes (Text.bytes text)))) (Session.hasHead_afterSample.insert_hint _)
    (by decide) (Session.hinted text) rfl
  have hFound (text : String) : found? (Host.answer (.call (.get (Site.top.resolve path)))
      (Session.hinted text)).1 = version? (Text.bytes text) :=
    Host.found?_hint rfl (TextMap.get?_insert_self _ (Site.top.resolve path) (.bytes (Text.bytes text)))
  refine ⟨?_, ?_, ?_, ?_, ?_⟩
  · obtain ⟨s, hReach, hStore⟩ := Session.exists_reachable_afterSample
    rw [← hStore]
    rcases hHeld s hReach with hNone | hSome
    · exact absurd (hStore ▸ hNone) (by decide +kernel)
    · exact hSome
  · exact (hCost "1").2.1 1 ((hFound "1").trans (by decide)) (by decide)
  · exact (hCost "0").2.1 0 ((hFound "0").trans (by decide)) (by decide)
  · exact (hCost " 9").2.2.2.1 9 ((hFound " 9").trans (by decide)) (by decide)
  · exact (hCost "one").2.2.1 ((hFound "one").trans (by decide))

end SnapshotCatalog
