import SnapshotCatalog.Proofs.Effects
/-!
Every operation keeps its duties, whatever the other clients do: this is the only place where the
operations are gone through one by one. No operation draws more than one identifier.
-/
namespace SnapshotCatalog

open Storage (Memory)
open Program

variable {α τ : Type} {site : Site} {m : Memory} {drawn : Option Uuid}
  {published : List Publication} {op : Operation Handle}

namespace Program

theorem Asks.replying {kind : Request → Prop} {p : Program α} (h : p.Asks kind)
    (reply : α → Reply) : (p.replying reply).Asks kind :=
  h.bind fun _ => asks_done _

theorem Keeps.replying {terms : Terms} {post : Reply → Prop} {p : Program α} {reply : α → Reply}
    (h : p.Keeps terms fun value => post (reply value)) : (p.replying reply).Keeps terms post :=
  (keeps_bind _ _ _).mpr (h.weaken fun _ hValue => Keeps.done hValue)

theorem Draws.replying {p : Program α} {limit : Nat} (h : p.Draws limit) (reply : α → Reply) :
    (p.replying reply).Draws limit :=
  Draws.bind h fun value => (asks_done (reply value)).draws

/-- A program that draws one identifier and then no more. -/
theorem draws_freshUuid {next : Uuid → Program α} (h : ∀ id, (next id).Asks fun r => r ≠ .freshUuid) :
    (freshUuid.bind next).Draws 1 := by
  have hOne : freshUuid.Draws 1 := draws_request (Nat.le_refl 1) fun id => (asks_done id).draws
  exact Draws.bind hOne fun id => (h id).draws

end Program

theorem coversChain_noDraw (site : Site) : CoversChain site fun r => r ≠ .freshUuid :=
  ⟨⟨fun _ => nofun, fun _ => nofun⟩, fun _ => nofun⟩

namespace Lakehouse

theorem draws_define [Definition α] (t : Transaction) (key : String) (path : Uuid → String) (x : α) :
    (define site t key path x).Draws 1 :=
  draws_freshUuid fun _ => Asks.bind (Definition.asks_store nofun) fun _ => asks_done _

theorem draws_change (t : Transaction) (c : Change) : (c.program site t).Draws 1 := by
  rw [c.program_eq]
  have hLook : (look site t c.target).Draws 0 := (asks_look nofun _).draws
  refine (Nat.zero_add 1) ▸ hLook.bind fun key => ?_
  rcases c.perform_cases with ⟨-, hPerform⟩ | ⟨β, _, x, path, -, hPerform⟩
  · rw [hPerform]
    exact (asks_done _).draws.mono (Nat.zero_le 1)
  · rw [hPerform]
    exact draws_define t key path x

theorem asks_publish_noDraw (version : Version) (d : LakehouseDef) (r : Root) :
    (publish site version d r).Asks fun r => r ≠ .freshUuid :=
  asks_publish nofun (fun _ => nofun) (fun _ => nofun) fun _ => nofun

theorem draws_create (d : LakehouseDef) : (create site d).Draws 1 := by
  have hCheck : (Program.ofExcept d.validate).Draws 0 := (asks_ofExcept _).draws
  have hProbe : (Chain.hasRoot site 0).Draws 0 :=
    (Chain.asks_hasRoot (coversChain_noDraw site).toCoversProbes 0).draws
  refine (Nat.zero_add 1) ▸ hCheck.bind fun _ => (Nat.zero_add 1) ▸ hProbe.bind fun found => ?_
  split
  · exact (asks_fail _).draws.mono (Nat.zero_le 1)
  · refine draws_freshUuid fun id => ?_
    refine Asks.bind (Definition.asks_store nofun) fun _ => ?_
    refine Asks.bind (asks_publish_noDraw _ _ _) fun published => ?_
    cases published with
    | some root => exact asks_done _
    | none => exact asks_fail _

theorem asks_commit_noDraw (t : Transaction) : (commit site t).Asks fun r => r ≠ .freshUuid := by
  refine Asks.bind (asks_ofExcept _) fun drafted => ?_
  refine Asks.bind (LakehouseDef.asks_load nofun) fun d => ?_
  refine Asks.bind (asks_publish_noDraw _ _ _) fun published => ?_
  cases published with
  | none => exact Asks.request nofun fun _ => asks_fail _
  | some root => exact Asks.request nofun fun _ => asks_done _

theorem asks_beginAt {kind : Request → Prop} (hClock : kind .clock) (hId : kind .freshTransactionId)
    (root : Root) (isolation : IsolationLevel) : (beginAt root isolation).Asks kind :=
  Asks.request hClock fun _ => Asks.request hId fun _ => asks_done _

end Lakehouse

namespace Operation

open Lakehouse

theorem draws_program (op : Operation Transaction) : (op.program site).Draws 1 := by
  have hChain := coversChain_noDraw site
  -- All operations but those that write definitions draw nothing.
  have hNone {p : Program Reply} (h : p.Asks fun r => r ≠ .freshUuid) : p.Draws 1 :=
    h.draws.mono (Nat.zero_le 1)
  cases op with
  | create d => exact (draws_create d).replying _
  | begin isolation =>
      refine hNone (Asks.replying (Asks.bind (Chain.asks_latestRoot hChain nofun) fun _ => ?_) _)
      exact asks_beginAt nofun nofun _ _
  | beginAtVersion version isolation =>
      refine hNone (Asks.replying (Asks.bind (Chain.Search.asks_run hChain nofun _) fun _ => ?_) _)
      exact asks_beginAt nofun nofun _ _
  | query t q => exact hNone (q.asks_program nofun fun _ _ => nofun)
  | change t c => exact (draws_change t c).replying _
  | commit t => exact hNone ((asks_commit_noDraw t).replying _)
  | latestVersion => exact hNone ((Chain.asks_latestVersion hChain nofun).replying _)
  | rootForVersion version => exact hNone ((Chain.Search.asks_run hChain nofun _).replying _)
  | rootBefore time => exact hNone ((Chain.Search.asks_run hChain nofun _).replying _)
  | history polls => exact hNone ((Chain.asks_readOn hChain.toCoversLinks _ fun _ =>
      Chain.asks_latestRoot hChain nofun).replying _)
  | verify => exact hNone ((Chain.asks_verify hChain nofun).replying _)

/-- An operation on a known transaction keeps its duties, and a transaction that it delivers is a
known one. -/
theorem keeps_program (op : Operation Handle) (hRecords : Records site m published)
    (hKnown : ∀ h, op.about? = some h → h.Known site m published) (hFits : op.Fits) :
    ((op.map Handle.transaction).program site).Keeps (duties site m op drawn)
      (Delivers site m published op drawn) := by
  have hQuiet := coversChain_quiet site
  have hHint : Request.Quiet (.call (.get (site.resolve Hint.path))) := rfl
  have hSearch {s : Chain.Search} (hs : s.IsPlain) :
      (s.run site).Keeps (duties site m op drawn) fun r => ∃ p ∈ published, p.root = r :=
    keeps_of_quiet (Chain.Search.keeps_run hRecords hs) (Chain.Search.asks_run hQuiet hHint s)
  cases op with
  | create d =>
      exact Keeps.replying ((keeps_create (hFits _ rfl)).weaken fun _ _ _ ht => nomatch ht)
  | begin isolation =>
      have hRead : (Chain.latestRoot site).Keeps (duties site m (.begin isolation) drawn) fun r =>
          ∃ p ∈ published, p.root = r :=
        keeps_of_quiet (Chain.keeps_latestRoot hRecords) (Chain.asks_latestRoot hQuiet hHint)
      refine Keeps.replying ((keeps_bind _ _ _).mpr (hRead.weaken fun root hRoot => ?_))
      refine (keeps_beginAt hRecords hRoot isolation).weaken fun t ht => ?_
      rintro _ ⟨⟩
      exact ht
  | beginAtVersion version isolation =>
      have hRead := hSearch (Chain.Search.isPlain_forVersion version)
      refine Keeps.replying ((keeps_bind _ _ _).mpr (hRead.weaken fun root hRoot => ?_))
      refine (keeps_beginAt hRecords hRoot isolation).weaken fun t ht => ?_
      rintro _ ⟨⟩
      exact ht
  | query h q =>
      obtain ⟨-, d, hSound⟩ := hKnown h rfl
      have hGoverns := hSound.governs_running
      have hAsks : (q.program site h.transaction).Asks Request.Quiet := by
        apply q.asks_program
        · exact rfl
        · exact fun _ _ => rfl
      exact (keeps_of_quiet (q.keeps_program hGoverns) hAsks).weaken
        fun reply hReply t ht => absurd ht (hReply t)
  | change h c =>
      obtain ⟨hBeginning, d, hSound⟩ := hKnown h rfl
      refine Keeps.replying
        ((Change.keeps_program hSound.governs_running hFits.of_change).weaken fun t ht => ?_)
      obtain ⟨hStored, key, hKey, rfl⟩ := ht
      rintro _ ⟨⟩
      exact ⟨hBeginning, d, hSound.touch hStored hKey⟩
  | commit h =>
      obtain ⟨-, d, hSound⟩ := hKnown h rfl
      exact Keeps.replying ((keeps_commit hSound).weaken fun _ _ _ ht => nomatch ht)
  | latestVersion =>
      have hRead : (Chain.latestVersion site).Keeps (duties site m .latestVersion drawn) fun _ =>
          True :=
        keeps_of_quiet (Chain.keeps_latestVersion (lenient_reading site m drawn))
          (Chain.asks_latestVersion hQuiet hHint)
      exact Keeps.replying (hRead.weaken fun _ _ _ ht => nomatch ht)
  | rootForVersion version =>
      exact Keeps.replying ((hSearch (Chain.Search.isPlain_forVersion version)).weaken
        fun _ _ _ ht => nomatch ht)
  | rootBefore time =>
      exact Keeps.replying ((hSearch (Chain.Search.isPlain_forTime time)).weaken fun _ _ _ ht => nomatch ht)
  | history polls =>
      have hRead : (Chain.history site polls).Keeps (duties site m (.history polls) drawn) _ :=
        keeps_of_quiet (Chain.keeps_readOn hRecords polls .head)
          (Chain.asks_readOn hQuiet.toCoversLinks polls fun _ => Chain.asks_latestRoot hQuiet hHint)
      refine Keeps.replying (hRead.weaken fun _ _ => ?_)
      rintro _ ⟨⟩
  | verify =>
      have hRead : (Chain.verify site).Keeps (duties site m .verify drawn) fun _ => True :=
        keeps_of_quiet (Chain.keeps_verify hRecords) (Chain.asks_verify hQuiet hHint)
      refine Keeps.replying (hRead.weaken fun _ _ => ?_)
      rintro _ ⟨⟩

end Operation

end SnapshotCatalog
