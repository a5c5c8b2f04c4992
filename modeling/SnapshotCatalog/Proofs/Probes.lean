import SnapshotCatalog.Proofs.Requests
/-!
What the catalog looks at in an answer. A store may describe an object under a key of its own, but the
catalog only ever probes for roots, and of a probe it wants to know no more than whether there is an
object. So programs end alike on stores that answer alike up to such descriptions.
-/
namespace SnapshotCatalog

open Program

/-- Two answers tell the catalog the same. Of a probe it only takes whether an object was found. -/
def Request.Alike : (r : Request) → r.Answer → r.Answer → Prop
  | .call (.head _), a, b => a.map Option.isSome = b.map Option.isSome
  | _, a, b => a = b

theorem Request.Alike.refl (r : Request) (a : r.Answer) : r.Alike a a := by
  cases r with
  | call c => cases c <;> exact rfl
  | _ => exact rfl

/-- What follows a request does not depend on more of the answer than that. -/
def Overlooks {α : Type} (r : Request) (next : r.Answer → Program α) : Prop :=
  ∀ a b, r.Alike a b → next a = next b

def Request.IsProbe : Request → Prop
  | .call (.head _) => True
  | _ => False

namespace Program

variable {α β σ τ : Type}

/-- A program that takes no more from answers than that. -/
def Blind (p : Program α) : Prop := p.Everywhere Overlooks

theorem blind_done (value : α) : (done value).Blind := everywhere_done value

theorem blind_fail (e : Error) : (fail e : Program α).Blind := everywhere_fail e

/-- A program that probes for nothing is blind. -/
theorem Asks.blind {p : Program α} (h : p.Asks fun r => ¬ r.IsProbe) : p.Blind := by
  induction p with
  | done value => exact blind_done value
  | fail e => exact blind_fail e
  | request r next ih =>
      obtain ⟨hRequest, hNext⟩ := (asks_request r next).mp h
      refine (everywhere_request r next).mpr ⟨fun a b hAlike => ?_, fun a => ih a (hNext a)⟩
      have hSame : a = b := by
        cases r with
        | call c =>
            cases c with
            | head key => exact absurd trivial hRequest
            | _ => exact hAlike
        | _ => exact hAlike
      rw [hSame]

theorem Blind.bind {p : Program α} {next : α → Program β} (h : p.Blind)
    (hNext : ∀ value, (next value).Blind) : (p.bind next).Blind := by
  induction p with
  | done value => exact hNext value
  | fail e => exact blind_fail e
  | request r rest ih =>
      obtain ⟨hRequest, hRest⟩ := (everywhere_request r rest).mp h
      exact (everywhere_request r _).mpr ⟨fun a b hAlike =>
        congrArg (·.bind next) (hRequest a b hAlike), fun a => ih a (hRest a)⟩

theorem Blind.attempt {p : Program α} (h : p.Blind) : p.attempt.Blind := by
  induction p with
  | done value => exact blind_done _
  | fail e => exact blind_done _
  | request r rest ih =>
      obtain ⟨hRequest, hRest⟩ := (everywhere_request r rest).mp h
      exact (everywhere_request r _).mpr ⟨fun a b hAlike =>
        congrArg Program.attempt (hRequest a b hAlike), fun a => ih a (hRest a)⟩

theorem Blind.replying {p : Program α} (h : p.Blind) (reply : α → Reply) : (p.replying reply).Blind :=
  h.bind fun value => blind_done (reply value)

/-- Two sides answer the requests of a kind alike, and go on side by side. -/
def SideBySide (kind : Request → Prop) (left : (r : Request) → σ → r.Answer × σ)
    (right : (r : Request) → τ → r.Answer × τ) (related : σ → τ → Prop) : Prop :=
  ∀ r s t, kind r → related s t →
    r.Alike (left r s).1 (right r t).1 ∧ related (left r s).2 (right r t).2

/-- A blind program that asks requests of the kind ends with one outcome on both sides. -/
theorem Blind.run_eq {kind : Request → Prop} {left : (r : Request) → σ → r.Answer × σ}
    {right : (r : Request) → τ → r.Answer × τ} {related : σ → τ → Prop} {p : Program α}
    (h : p.Blind) (hAsks : p.Asks kind) (hSides : SideBySide kind left right related) {s : σ} {t : τ}
    (hRelated : related s t) :
    (p.run left s).1 = (p.run right t).1 ∧ related (p.run left s).2 (p.run right t).2 := by
  induction p generalizing s t with
  | done value => exact ⟨rfl, hRelated⟩
  | fail e => exact ⟨rfl, hRelated⟩
  | request r next ih =>
      obtain ⟨hKind, hNextAsks⟩ := (asks_request r next).mp hAsks
      obtain ⟨hOverlooks, hNext⟩ := (everywhere_request r next).mp h
      obtain ⟨hAnswers, hAfter⟩ := hSides r s t hKind hRelated
      rw [run, run]
      dsimp only
      rw [hOverlooks _ _ hAnswers]
      exact ih _ (hNext _) (hNextAsks _) hAfter

end Program

/-! ### The operations -/

variable {site : Site}

/-- Only probes for roots are kept out. -/
theorem coversLinks_noProbe (site : Site) : CoversLinks site fun r => ¬ r.IsProbe :=
  ⟨fun _ => id, fun _ => id⟩

namespace Chain

/-- A probe is only asked whether it found something. -/
theorem blind_hasRoot (v : Version) : (hasRoot site v).Blind := by
  show ((site.head (RootPath.ofVersion v)).bind _).Blind
  rw [Site.head, site.key_root]
  refine (everywhere_request _ _).mpr ⟨fun a b hAlike => ?_, fun a =>
    Asks.blind (Asks.bind (asks_ofExcept _) fun _ => asks_done _)⟩
  cases a with
  | error e =>
      cases b with
      | error e' => rw [Except.error.inj hAlike]
      | ok found => cases hAlike
  | ok found =>
      cases b with
      | error e => cases hAlike
      | ok found' => exact congrArg done (Except.ok.inj hAlike)

theorem blind_climb (left : Nat) (v : Version) (probes : Nat) :
    (climb site v probes left).Blind := by
  induction left generalizing v probes with
  | zero => exact blind_done _
  | succ left ih =>
      refine (blind_hasRoot _).bind fun found => ?_
      cases found with
      | true => exact ih _ _
      | false => exact blind_done _

theorem blind_climbFrom (v : Version) (probes : Nat) : (climbFrom site v probes).Blind := by
  rw [climbFrom, bind_eq]
  exact (blind_climb _ v probes).bind fun _ =>
    Asks.blind (Asks.bind (asks_record (coversLinks_noProbe site).record _) fun _ => asks_done _)

theorem blind_latestFrom (hint : Version) : (latestFrom site hint).Blind := by
  have hNone (probes : Nat) : (notInitialized probes : Program Version).Blind :=
    (asks_notInitialized (coversLinks_noProbe site).record probes).blind
  rw [latestFrom, bind_eq]
  refine (blind_hasRoot hint).bind fun found => ?_
  split
  · exact blind_climbFrom hint 1
  · split
    · exact hNone 1
    · refine (asks_record (coversLinks_noProbe site).record _).blind.bind fun _ => ?_
      refine (blind_hasRoot 0).bind fun found => ?_
      split
      · exact blind_climbFrom 0 2
      · exact hNone 2

theorem blind_latestVersion (site : Site) : (latestVersion site).Blind :=
  (asks_readHint (coversLinks_noProbe site).record id).blind.bind blind_latestFrom

theorem blind_latestRoot (site : Site) : (latestRoot site).Blind :=
  (blind_latestVersion site).bind fun _ => (asks_readRootAt (coversLinks_noProbe site) _).blind

theorem Search.blind_run (s : Search) (site : Site) : (s.run site).Blind :=
  (blind_latestRoot site).bind fun head =>
    Asks.blind (Asks.bind (asks_ofExcept _) fun _ =>
      s.asks_down (coversLinks_noProbe site) _ head)

theorem blind_history (site : Site) (polls : Nat) : (history site polls).Blind := by
  cases polls with
  | zero => exact blind_done _
  | succ polls =>
      have hPoll : (poll site .head).Blind := (blind_latestRoot site).bind fun _ => blind_done _
      refine hPoll.attempt.bind fun answer => Asks.blind ?_
      match answer with
      | .error e => exact asks_done _
      | .ok none => exact asks_done _
      | .ok (some r) =>
          exact Asks.bind (asks_readOn (coversLinks_noProbe site) polls fun hHead => nomatch hHead)
            fun _ => asks_done _

theorem blind_verify (site : Site) : (verify site).Blind := by
  refine (blind_history site longest).bind fun result => ?_
  obtain ⟨roots, error⟩ := result
  cases error with
  | some e => exact blind_fail e
  | none => exact blind_done _

end Chain

namespace Lakehouse

theorem blind_create (site : Site) (d : LakehouseDef) : (create site d).Blind := by
  refine (asks_ofExcept _).blind.bind fun _ => (Chain.blind_hasRoot 0).bind fun found => ?_
  split
  · exact blind_fail _
  · refine Asks.blind (Asks.bind (asks_freshUuid id) fun _ => ?_)
    refine Asks.bind (Definition.asks_store id) fun _ => ?_
    refine Asks.bind (asks_publish id (fun _ => id) (fun _ => id) fun _ => id) fun published => ?_
    cases published with
    | some root => exact asks_done _
    | none => exact asks_fail _

theorem blind_beginAt (root : Root) (isolation : IsolationLevel) : (beginAt root isolation).Blind :=
  (asks_beginAt id id root isolation).blind

theorem blind_commit (site : Site) (t : Transaction) : (commit site t).Blind := by
  refine Asks.blind (Asks.bind (asks_ofExcept _) fun drafted => ?_)
  refine Asks.bind (LakehouseDef.asks_load id) fun d => ?_
  refine Asks.bind (asks_publish id (fun _ => id) (fun _ => id) fun _ => id) fun published => ?_
  cases published with
  | none => exact Asks.request id fun _ => asks_fail _
  | some root => exact Asks.request id fun _ => asks_done _

end Lakehouse

theorem Change.blind_program (c : Change) (site : Site) (t : Transaction) : (c.program site t).Blind := by
  rw [c.program_eq]
  refine Asks.blind (Asks.bind (Lakehouse.asks_look id _) fun key => ?_)
  rcases c.perform_cases with ⟨-, hPerform⟩ | ⟨β, _, x, path, -, hPerform⟩
  · rw [hPerform]
    exact asks_done _
  · rw [hPerform]
    exact Lakehouse.asks_define id fun _ => id

/-- No operation looks at how a store describes an object. -/
theorem Operation.blind_program (op : Operation Transaction) (site : Site) : (op.program site).Blind := by
  cases op with
  | create d => exact (Lakehouse.blind_create site d).replying _
  | begin isolation =>
      exact ((Chain.blind_latestRoot site).bind fun root =>
        Lakehouse.blind_beginAt root isolation).replying _
  | beginAtVersion version isolation =>
      exact ((Chain.Search.blind_run _ site).bind fun root =>
        Lakehouse.blind_beginAt root isolation).replying _
  | query t q => exact (q.asks_program id fun _ _ => id).blind
  | change t c => exact (c.blind_program site t).replying _
  | commit t => exact (Lakehouse.blind_commit site t).replying _
  | latestVersion => exact (Chain.blind_latestVersion site).replying _
  | rootForVersion version => exact (Chain.Search.blind_run _ site).replying _
  | rootBefore time => exact (Chain.Search.blind_run _ site).replying _
  | history polls =>
      exact (Chain.blind_history site polls).bind fun read => blind_done _
  | verify => exact (Chain.blind_verify site).replying _

end SnapshotCatalog
