import SnapshotCatalog.TextMap
import SnapshotCatalog.Storage.Call
/-!
A store in memory: a finite map from keys to objects. Keys are used exactly as they are given, and
a listing scans the keys in order up to the first one that does not begin as asked.
-/
namespace SnapshotCatalog.Storage

abbrev Memory := TextMap Blob

namespace Memory

def metaOf (entry : String × Blob) : ObjectMeta := ⟨entry.1, entry.2.size⟩

/-- Answers a call. No call fails but the read of an object that is not stored. -/
def answer : (c : Call) → Memory → c.Answer × Memory
  | .get key, m =>
    match m.get? key with
    | some blob => (.ok blob, m)
    | none => (.error (noObject key), m)
  | .put key blob mode, m =>
    if mode = .createNew ∧ m.contains key = true then (.ok .alreadyExists, m)
    else (.ok .written, m.insert key blob)
  | .delete key, m => (.ok (), m.erase key)
  | .list start, m => (.ok ((m.scan start).map metaOf), m)
  | .head key, m => (.ok ((m.get? key).map fun blob => ⟨key, blob.size⟩), m)

end Memory

end SnapshotCatalog.Storage
