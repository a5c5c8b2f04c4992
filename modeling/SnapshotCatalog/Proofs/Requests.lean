import SnapshotCatalog.Proofs.Duties
/-!
What an operation asks, whatever it is told. The requests of an operation are few: roots, the hint,
the definitions that its transaction names, a definition of its own, and what is not stored. A kind
of requests that covers these covers the whole operation, so that the operations need not be gone
through again for every such kind.
-/
namespace SnapshotCatalog

open Program Lakehouse

/-- Whether an operation creates roots. -/
def Operation.isPublishing {τ : Type} : Operation τ → Bool
  | .create _ => true
  | .commit _ => true
  | _ => false

/-- A kind of requests covers an operation up to its publication when it includes all that the
operation may ask but for what publishes a root. -/
structure CoversUnpublished (site : Site) (kind : Request → Prop) (op : Operation Transaction) :
    Prop where
  chain : CoversChain site kind
  readHint : kind (.call (.get (site.resolve Hint.path)))
  uuid : kind .freshUuid
  transactionId : kind .freshTransactionId
  clock : kind .clock
  lakehouse : ∀ id data,
    kind (.call (.put (site.resolve (DefinitionPath.ofLakehouse id)) (.bytes data) .createNew))
  limits : ∀ t, op.about? = some t →
    kind (.call (.get (site.resolve t.running.lakehouseDefPath)))
  rows : ∀ t, op.about? = some t → ∀ entry ∈ t.running.rows.entries,
    kind (.call (.get (site.resolve entry.2)))
  definition : ∀ (t : Transaction) (c : Change) limits key data path id, op.about? = some t →
    c.target limits t.running = .ok key → c.definition? = some (data, path) →
      kind (.call (.put (site.resolve (path id)) (.bytes data) .createNew))

/-- A kind of requests covers an operation when it includes all that the operation may ask. The roots
that an operation creates come apart, because they hold what the clock told. -/
structure Covers (site : Site) (kind : Request → Prop) (op : Operation Transaction) : Prop extends
    CoversUnpublished site kind op where
  writeHint : ∀ blob, kind (.call (.put (site.resolve Hint.path) blob .overwrite))

/-- The kind includes every root, whatever the time it was stamped with. -/
def CoversRoots (site : Site) (kind : Request → Prop) : Prop :=
  ∀ v r time, kind (.call (.put (site.resolve (RootPath.ofVersion v))
    (.node (Node.encode r time)) .createNew))

variable {site : Site} {kind : Request → Prop} {terms : Terms} {op : Operation Transaction}

namespace CoversUnpublished

theorem asks_change {t : Transaction} {c : Change} (h : CoversUnpublished site kind (.change t c)) :
    (c.program site t).Asks kind := by
  rw [c.program_eq]
  refine asks_look_bind (h.limits t rfl) fun limits key hTarget => ?_
  rcases c.perform_cases with ⟨-, hPerform⟩ | ⟨β, _, x, path, hDefinition, hPerform⟩
  · rw [hPerform]
    exact asks_done _
  · rw [hPerform]
    exact asks_define h.uuid fun id => h.definition t c limits key _ path id rfl hTarget hDefinition

theorem keeps_create {d : LakehouseDef} (h : CoversUnpublished site terms.asks (.create d))
    (hFails : ∀ e, terms.fails e)
    (hPublish : ∀ version d r, (publish site version d r).Keeps terms fun _ => True) :
    (create site d).Keeps terms fun _ => True := by
  refine Asks.keeps_bind (asks_ofExcept _) hFails fun _ => ?_
  refine Asks.keeps_bind (Chain.asks_hasRoot h.chain.toCoversProbes 0) hFails fun found => ?_
  cases found with
  | true => exact Keeps.fail (hFails _)
  | false =>
      refine Asks.keeps_bind (asks_freshUuid h.uuid) hFails fun id => ?_
      refine Asks.keeps_bind (Definition.asks_store (h.lakehouse id _)) hFails fun _ => ?_
      refine (keeps_bind _ _ _).mpr ((hPublish _ _ _).weaken fun published _ => ?_)
      cases published with
      | some root => exact Keeps.done trivial
      | none => exact Keeps.fail (hFails _)

theorem keeps_commit {t : Transaction} (h : CoversUnpublished site terms.asks (.commit t))
    (hFails : ∀ e, terms.fails e)
    (hPublish : ∀ version d r, (publish site version d r).Keeps terms fun _ => True) :
    (commit site t).Keeps terms fun _ => True := by
  rw [commit]
  cases hDraft : draft t with
  | error e => exact Keeps.fail (hFails e)
  | ok drafted =>
      obtain ⟨version, root⟩ := drafted
      obtain ⟨location, -, -, -, hRoot⟩ := draft_eq_ok hDraft
      have hPath : root.lakehouseDefPath = t.running.lakehouseDefPath := by rw [hRoot]
      show ((LakehouseDef.load site root.lakehouseDefPath).bind _).Keeps terms _
      refine Asks.keeps_bind (LakehouseDef.asks_load (hPath ▸ h.limits t rfl)) hFails fun d => ?_
      refine (keeps_bind _ _ _).mpr ((hPublish _ _ _).weaken fun published _ => ?_)
      cases published with
      | none => exact Keeps.request (h.chain.record _) fun _ _ => Keeps.fail (hFails _)
      | some root => exact Keeps.request (h.chain.record _) fun _ _ => Keeps.done trivial

/-- Every operation keeps terms that cover it up to its publication, if publishing keeps them. -/
theorem keeps_program (h : CoversUnpublished site terms.asks op) (hFails : ∀ e, terms.fails e)
    (hPublish : op.isPublishing = true →
      ∀ version d r, (publish site version d r).Keeps terms fun _ => True) :
    (op.program site).Keeps terms fun _ => True := by
  have hQuiet {p : Program Reply} (hAsks : p.Asks terms.asks) : p.Keeps terms fun _ => True :=
    hAsks.keeps hFails
  cases op with
  | create d => exact (h.keeps_create hFails (hPublish rfl)).replying
  | commit t => exact (h.keeps_commit hFails (hPublish rfl)).replying
  | begin isolation =>
      refine hQuiet (Asks.replying (Asks.bind (Chain.asks_latestRoot h.chain h.readHint) fun root => ?_) _)
      exact asks_beginAt h.clock h.transactionId root isolation
  | beginAtVersion version isolation =>
      refine hQuiet (Asks.replying (Asks.bind (Chain.Search.asks_run h.chain h.readHint _) fun root => ?_) _)
      exact asks_beginAt h.clock h.transactionId root isolation
  | query t q => exact hQuiet (q.asks_program (h.limits t rfl) (h.rows t rfl))
  | change t c => exact hQuiet (h.asks_change.replying _)
  | latestVersion => exact hQuiet ((Chain.asks_latestVersion h.chain h.readHint).replying _)
  | rootForVersion version => exact hQuiet ((Chain.Search.asks_run h.chain h.readHint _).replying _)
  | rootBefore time => exact hQuiet ((Chain.Search.asks_run h.chain h.readHint _).replying _)
  | history polls => exact hQuiet ((Chain.asks_readOn h.chain.toCoversLinks polls fun _ =>
      Chain.asks_latestRoot h.chain h.readHint).replying _)
  | verify => exact hQuiet ((Chain.asks_verify h.chain h.readHint).replying _)

end CoversUnpublished

/-- Every operation asks what covers it, and roots only if it creates roots. -/
theorem Covers.asks_program (h : Covers site kind op)
    (hRoots : op.isPublishing = true → CoversRoots site kind) : (op.program site).Asks kind := by
  have hFails (e : Error) : (⟨fun _ _ => True, kind, fun _ => True⟩ : Terms).fails e := trivial
  refine (h.toCoversUnpublished.keeps_program hFails fun hPublishing version d r => ?_).asks
  have hPublish : (publish site version d r).Asks kind :=
    asks_publish h.clock h.chain.record (hRoots hPublishing _ _) h.writeHint
  exact hPublish.keeps hFails

end SnapshotCatalog
