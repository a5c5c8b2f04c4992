import SnapshotCatalog.Program
import SnapshotCatalog.Storage.Backend
/-!
A host on which programs run: a store, supplies of fresh identifiers, a clock, and the record of
what was measured. Identifiers are drawn from counters, so no two of them are equal, and the clock
stands still until it is set.
-/
namespace SnapshotCatalog

structure Host where
  store : Storage.Contended
  nextUuid : Uuid
  nextTransactionId : TransactionId
  now : Millis
  measured : List Measurement

namespace Host

/-- A host with a store that was just opened, at a time. -/
def start (backend : Storage.Backend) (now : Millis) : Host :=
  ⟨.ofBackend backend, ⟨0⟩, ⟨0⟩, now, []⟩

/-- Answers a request. -/
def answer : (r : Request) → Host → r.Answer × Host
  | .call c, h =>
    let (reply, store) := h.store.answer c
    (reply, { h with store })
  | .freshUuid, h => (h.nextUuid, { h with nextUuid := ⟨h.nextUuid.bits + 1⟩ })
  | .freshTransactionId, h =>
    (h.nextTransactionId, { h with nextTransactionId := ⟨h.nextTransactionId.bits + 1⟩ })
  | .clock, h => (h.now, h)
  | .record m, h => ((), { h with measured := h.measured ++ [m] })

/-- Runs a program to its end. -/
def run {α : Type} (h : Host) (p : Program α) : Except Error α × Host := p.run answer h

end Host

end SnapshotCatalog
