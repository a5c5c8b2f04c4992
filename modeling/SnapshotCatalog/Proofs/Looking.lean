import SnapshotCatalog.Proofs.Reading
/-!
What lookups through a transaction ask and find. The definition of the lakehouse is never replaced,
so whenever it is read, the limits under which names and rows are looked up are the same.
-/
namespace SnapshotCatalog

open Storage (Memory)
open Program

variable {α : Type} {site : Site} {m : Memory} {drawn : Option Uuid} {kind : Request → Prop}
  {d : LakehouseDef} {t : Transaction}

namespace Definition

variable [Definition α]

theorem calm_parse (path : String) (data : List UInt8) :
    Calm (parse path data : Except Error α) := by
  rw [parse]
  split
  · exact calm_ok _
  · exact calm_error rfl

theorem asks_load {path : String} (h : kind (.call (.get (site.resolve path)))) :
    (load site path : Program α).Asks kind :=
  Asks.bind (site.asks_read h) fun _ => asks_ofExcept _

theorem keeps_load (path : String) :
    (load site path : Program α).Keeps (reading site m drawn) fun _ => True :=
  (keeps_bind _ _ _).mpr ((site.keeps_read path).weaken fun _ _ =>
    keeps_ofExcept_calm (calm_parse path _) fun _ _ => trivial)

end Definition

namespace LakehouseDef

theorem asks_load {path : String} (h : kind (.call (.get (site.resolve path)))) :
    (load site path).Asks kind := by
  refine Asks.bind (Definition.asks_load h) fun d => ?_
  split
  · exact asks_fail _
  · exact asks_done _

/-- Whoever reads the definition of the lakehouse gets the one that was stored. -/
theorem keeps_load {path : String} (h : Governs site m path d) :
    (load site path).Keeps (reading site m drawn) (· = d) := by
  have hRead : (Definition.load site path : Program LakehouseDef).Keeps (reading site m drawn)
      (· = d) := by
    refine (keeps_bind _ _ _).mpr ((site.keeps_read path).weaken fun blob hBlob => ?_)
    have hPath : path ≠ Hint.path := fun hSame => h.ne_hint (congrArg site.resolve hSame)
    cases (hBlob hPath).symm.trans h.stored
    refine keeps_ofExcept_calm (Definition.calm_parse path _) fun _ hFound => ?_
    have hParse : (Definition.parse path d.encode : Except Error LakehouseDef) = .ok d := by
      rw [Definition.parse, d.decode_encode h.fits]
    exact Except.ok.inj (hFound.symm.trans hParse)
  refine (keeps_bind _ _ _).mpr (hRead.weaken fun found hFound => ?_)
  subst hFound
  rw [h.valid]
  exact Keeps.done rfl

end LakehouseDef

namespace Lakehouse

theorem asks_keyLimits (h : kind (.call (.get (site.resolve t.running.lakehouseDefPath)))) :
    (keyLimits site t).Asks kind :=
  Asks.bind (LakehouseDef.asks_load h) fun _ => asks_done _

theorem keeps_keyLimits (h : Governs site m t.running.lakehouseDefPath d) :
    (keyLimits site t).Keeps (reading site m drawn) (· = d.keyLimits) :=
  (keeps_bind _ _ _).mpr ((LakehouseDef.keeps_load h).weaken fun _ hFound =>
    Keeps.done (congrArg LakehouseDef.keyLimits hFound))

theorem asks_look (h : kind (.call (.get (site.resolve t.running.lakehouseDefPath))))
    (question : KeyLimits → Root → Except Error α) : (look site t question).Asks kind :=
  Asks.bind (asks_keyLimits h) fun _ => asks_ofExcept _

/-- What follows a lookup is only asked about what was found. -/
theorem asks_look_bind {β : Type} {question : KeyLimits → Root → Except Error α}
    {next : α → Program β} (h : kind (.call (.get (site.resolve t.running.lakehouseDefPath))))
    (hNext : ∀ limits value, question limits t.running = .ok value → (next value).Asks kind) :
    ((look site t question).bind next).Asks kind := by
  show ((keyLimits site t).bind _ |>.bind next).Asks kind
  rw [bind_assoc]
  refine Asks.bind (asks_keyLimits h) fun limits => ?_
  cases hValue : question limits t.running with
  | error e => exact asks_fail e
  | ok value => exact hNext limits value hValue

theorem mem_of_existing {r : Root} {key noun id value : String}
    (h : existing r key noun id = .ok value) : (key, value) ∈ r.rows.entries := by
  rw [existing] at h
  split at h
  · next hGet =>
    cases h
    exact r.rows.get?_eq_some_iff.mp hGet
  · cases h

theorem mem_of_existingNamespace {limits : KeyLimits} {r : Root} {ns : String}
    {found : String × String} (h : existingNamespace limits r ns = .ok found) :
    found ∈ r.rows.entries := by
  obtain ⟨key, -, h⟩ := bind_eq_ok.mp h
  obtain ⟨path, hPath, h⟩ := bind_eq_ok.mp h
  cases h
  exact mem_of_existing hPath

theorem mem_of_existingTable {limits : KeyLimits} {r : Root} {ns table : String}
    {found : String × String} (h : existingTable limits r ns table = .ok found) :
    found ∈ r.rows.entries := by
  obtain ⟨key, -, h⟩ := bind_eq_ok.mp h
  obtain ⟨path, hPath, h⟩ := bind_eq_ok.mp h
  cases h
  exact mem_of_existing hPath

/-- A lookup is answered under the limits of the lakehouse. -/
theorem keeps_look (h : Governs site m t.running.lakehouseDefPath d)
    {question : KeyLimits → Root → Except Error α}
    (hCalm : ∀ limits, Calm (question limits t.running)) :
    (look site t question).Keeps (reading site m drawn) fun value =>
      question d.keyLimits t.running = .ok value := by
  refine (keeps_bind _ _ _).mpr ((keeps_keyLimits h).weaken fun limits hLimits => ?_)
  subst hLimits
  exact keeps_ofExcept_calm (hCalm _) fun value hValue => hValue

end Lakehouse

namespace Query

open Lakehouse

/-- Beyond the definition of the lakehouse, a query asks for what a row names. -/
theorem asks_program (hLimits : kind (.call (.get (site.resolve t.running.lakehouseDefPath))))
    (hRows : ∀ entry ∈ t.running.rows.entries, kind (.call (.get (site.resolve entry.2))))
    (q : Query) : (q.program site t).Asks kind := by
  cases q with
  | describeLakehouse => exact Asks.bind (LakehouseDef.asks_load hLimits) fun _ => asks_done _
  | showNamespaces => exact Asks.bind (asks_look hLimits _) fun _ => asks_done _
  | namespaceExists ns => exact Asks.bind (asks_look hLimits _) fun _ => asks_done _
  | describeNamespace ns =>
      refine Asks.bind (asks_look_bind hLimits fun limits found hFound => ?_) fun _ => asks_done _
      exact Definition.asks_load (hRows _ (mem_of_existingNamespace hFound))
  | showTables ns => exact Asks.bind (asks_look hLimits _) fun _ => asks_done _
  | tableExists ns table => exact Asks.bind (asks_look hLimits _) fun _ => asks_done _
  | describeTable ns table =>
      refine Asks.bind (asks_look_bind hLimits fun limits found hFound => ?_) fun _ => asks_done _
      exact Definition.asks_load (hRows _ (mem_of_existingTable hFound))

theorem keeps_replying {p : Program α} {reply : α → Reply}
    (hReply : ∀ value t, reply value ≠ .transaction t)
    (h : p.Keeps (reading site m drawn) fun _ => True) :
    (p.replying reply).Keeps (reading site m drawn) fun reply => ∀ t, reply ≠ .transaction t :=
  (keeps_bind _ _ _).mpr (h.weaken fun value _ => Keeps.done (hReply value))

/-- A lookup whose value does not matter. -/
theorem keeps_asked (h : Governs site m t.running.lakehouseDefPath d)
    {question : KeyLimits → Root → Except Error α}
    (hCalm : ∀ limits, Calm (question limits t.running)) :
    (look site t question).Keeps (reading site m drawn) fun _ => True :=
  (keeps_look h hCalm).weaken fun _ _ => trivial

theorem keeps_describe [Definition α] (h : Governs site m t.running.lakehouseDefPath d)
    {question : KeyLimits → Root → Except Error (String × String)}
    (hCalm : ∀ limits, Calm (question limits t.running)) :
    ((look site t question).bind fun found =>
      (Definition.load site found.2 : Program α)).Keeps (reading site m drawn) fun _ => True :=
  (keeps_bind _ _ _).mpr ((keeps_look h hCalm).weaken fun _ _ => Definition.keeps_load _)

theorem keeps_program (h : Governs site m t.running.lakehouseDefPath d) (q : Query) :
    (q.program site t).Keeps (reading site m drawn) fun reply => ∀ t, reply ≠ .transaction t := by
  cases q with
  | describeLakehouse =>
      apply keeps_replying
      · rintro _ _ ⟨⟩
      · exact (LakehouseDef.keeps_load h).weaken fun _ _ => trivial
  | showNamespaces =>
      apply keeps_replying
      · rintro _ _ ⟨⟩
      · exact keeps_asked h fun limits => calm_namespaceNames limits _
  | namespaceExists ns =>
      apply keeps_replying
      · rintro _ _ ⟨⟩
      · exact keeps_asked h fun limits => calm_return (calm_ofNamespace limits ns) _
  | describeNamespace ns =>
      apply keeps_replying
      · rintro _ _ ⟨⟩
      · exact keeps_describe h fun limits => calm_existingNamespace limits _ ns
  | showTables ns =>
      apply keeps_replying
      · rintro _ _ ⟨⟩
      · exact keeps_asked h fun limits => calm_tableNames limits _ ns
  | tableExists ns table =>
      apply keeps_replying
      · rintro _ _ ⟨⟩
      · exact keeps_asked h fun limits => calm_return (calm_tableKey limits _ ns table) _
  | describeTable ns table =>
      apply keeps_replying
      · rintro _ _ ⟨⟩
      · exact keeps_describe h fun limits => calm_existingTable limits _ ns table

end Query

end SnapshotCatalog
