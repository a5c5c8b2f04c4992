import SnapshotCatalog.Proofs.Depiction
import SnapshotCatalog.Proofs.StoredReads
/-!
What a transaction finds when it is asked. A question reads the definition of the lakehouse, looks
at the private rows, and reads at most one more definition. All of these are stored before a row
names them, so every question is answered as by the catalog that the rows depict.
-/
namespace SnapshotCatalog

open Storage (Memory)
open Lakehouse

section Questions

variable {α : Type} {site : Site} {m : Memory} {d : LakehouseDef} {c : Catalog} {t : Transaction}

theorem Lies.finds_load [Definition α] {path : String} {x : α}
    (h : Lies site m path (Definition.encode x))
    (hDecode : Definition.decode (Definition.encode x) = .ok x) :
    Finds site m (Definition.load site path) (.ok x) := by
  refine (finds_read h.ne_hint h.accepted h.stored).bind ?_
  show Finds site m (Program.ofExcept (Definition.parse path (Definition.encode x))) _
  rw [Definition.parse, hDecode]
  exact .done x

namespace Governs

/-- The definition of the lakehouse lies where every root says. -/
theorem lies {path : String} (h : Governs site m path d) : Lies site m path d.encode := by
  obtain ⟨id, rfl⟩ := h.made
  exact ⟨(DefinitionPath.bears_ofLakehouse id).ne_hint, DefinitionPath.check_ofLakehouse id,
    h.stored, h.fits⟩

/-- The definition of the lakehouse is read as it was stored. -/
theorem finds_load {path : String} (h : Governs site m path d) :
    Finds site m (LakehouseDef.load site path) (.ok d) := by
  have hLoad : Finds site m (Definition.load site path : Program LakehouseDef) (.ok d) :=
    h.lies.finds_load (d.decode_encode h.fits)
  apply hLoad.bind
  rw [h.valid]
  exact .done d

variable (h : Governs site m t.running.lakehouseDefPath d)

include h

/-- What is looked up is what the rows say under the limits of the lakehouse. -/
theorem finds_look (question : KeyLimits → Root → Except Error α) :
    Finds site m (look site t question) (question d.keyLimits t.running) :=
  (h.finds_load.bind (.done d.keyLimits)).bind (finds_ofExcept _)

theorem finds_look_replying {β : Type} {question : KeyLimits → Root → Except Error α}
    {held : Except Error β} {value : β → α}
    (hHeld : question d.keyLimits t.running = held.map value) (reply : α → Reply) :
    Finds site m ((look site t question).replying reply)
      (held.map fun found => reply (value found)) := by
  have hLook := h.finds_look question
  rw [hHeld] at hLook
  cases held with
  | ok found => exact hLook.bind (.done _)
  | error e => exact hLook.bind_error

/-- A definition that is looked up is the one that the catalog holds. -/
theorem finds_describe [Definition α] {β : Type} {R : String × String → β → Prop}
    {question : KeyLimits → Root → Except Error (String × String)} {held : Except Error β}
    {definition : β → α} (hAgrees : Agrees R (question d.keyLimits t.running) held)
    (hLoad : ∀ found value, R found value →
      Finds site m (Definition.load site found.2) (.ok (definition value)))
    (reply : α → Reply) :
    Finds site m
      (((look site t question).bind fun found => Definition.load site found.2).replying reply)
      (held.map fun value => reply (definition value)) := by
  have hLook := h.finds_look question
  generalize question d.keyLimits t.running = found at hAgrees hLook
  cases hAgrees with
  | ok hFound => exact (hLook.bind (hLoad _ _ hFound)).bind (.done _)
  | error e => exact hLook.bind_error.bind_error

end Governs

/-- Every question is answered as by the catalog that the rows depict. -/
theorem Depicts.finds_query (h : Depicts site m d.keyLimits t.running.rows c)
    (hGoverns : Governs site m t.running.lakehouseDefPath d) (q : Query) :
    Finds site m (q.program site t) (c.answer d q) := by
  cases q with
  | describeLakehouse => exact hGoverns.finds_load.bind (.done _)
  | showNamespaces =>
      have hNames : namespaceNames d.keyLimits t.running =
          (Except.ok () : Except Error Unit).map fun _ => c.keys := h.namespaceNames_eq
      exact hGoverns.finds_look_replying hNames .names
  | namespaceExists ns =>
      refine hGoverns.finds_look_replying ?_ .truth
      apply (Depicts.agrees_ofNamespace d.keyLimits ns).return_eq
      rintro _ _ ⟨hName, rfl⟩
      exact h.contains_ofNamespace hName
  | describeNamespace ns =>
      refine hGoverns.finds_describe (h.agrees_existingNamespace ns) ?_ _
      rintro _ shelf ⟨-, -, -, hLies⟩
      exact hLies.finds_load (shelf.definition.decode_encode hLies.fits)
  | showTables ns =>
      exact hGoverns.finds_look_replying (h.tableNames_eq ns) .names
  | tableExists ns table =>
      refine hGoverns.finds_look_replying ?_ .truth
      apply (h.agrees_tableKey ns table).return_eq
      rintro _ _ ⟨hSlot, rfl, shelf, hShelf, rfl⟩
      exact h.contains_ofTable hSlot hShelf
  | describeTable ns table =>
      refine hGoverns.finds_describe (h.agrees_existingTable ns table) ?_ _
      rintro _ definition ⟨-, hLies⟩
      exact hLies.finds_load (definition.decode_encode hLies.fits)

end Questions

end SnapshotCatalog
