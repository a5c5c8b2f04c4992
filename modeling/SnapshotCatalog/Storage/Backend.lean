import SnapshotCatalog.Storage.Tracing
import SnapshotCatalog.Storage.Folder
/-!
The stores a catalog can be kept in, and a store that others write to as well: a rival may get in
just before the next write to a key, and the store may deny every unconditional write as if it
had found an object. A denied write never happens, and neither does what a rival would have written
before it.
-/
namespace SnapshotCatalog.Storage

inductive Backend where
  | memory (m : Memory)
  | tracing (t : Tracing)
  | bucket (b : Bucket)
  | folder (f : Folder)

namespace Backend

/-- Answers a call. -/
def answer (c : Call) : Backend → c.Answer × Backend
  | .memory m =>
    let (reply, m) := Memory.answer c m
    (reply, .memory m)
  | .tracing t =>
    let (reply, t) := Tracing.answer c t
    (reply, .tracing t)
  | .bucket b =>
    let (reply, b) := Bucket.answer c b
    (reply, .bucket b)
  | .folder f =>
    let (reply, f) := Folder.answer c f
    (reply, .folder f)

end Backend

/-- A store together with what rivals are about to write, by key, and whether unconditional
writes are denied. -/
structure Contended where
  backend : Backend
  rivals : TextMap Blob
  deniesOverwrites : Bool

namespace Contended

def ofBackend (b : Backend) : Contended := ⟨b, .empty, false⟩

/-- Lets a rival write to a key just before the next write to it. A second rival takes the place of
the first. -/
def withRival (s : Contended) (key : String) (blob : Blob) : Contended :=
  { s with rivals := s.rivals.insert key blob }

/-- Passes a call on. -/
def pass (c : Call) (s : Contended) : c.Answer × Contended :=
  let (reply, backend) := s.backend.answer c
  (reply, { s with backend })

/-- Writes after a rival, whose failure is that of the write. -/
def putAfter (rival : Option Blob) (key : String) (blob : Blob) (mode : WriteMode)
    (s : Contended) : Except Error WriteOutcome × Contended :=
  match rival with
  | none => pass (.put key blob mode) s
  | some first =>
    match pass (.put key first .overwrite) s with
    | (.error e, s) => (.error e, s)
    | (.ok _, s) => pass (.put key blob mode) s

/-- Answers a call. -/
def answer : (c : Call) → Contended → c.Answer × Contended
  | .put key blob mode, s =>
    let rest := { s with rivals := s.rivals.erase key }
    if mode = .overwrite ∧ s.deniesOverwrites = true then (.ok .alreadyExists, rest)
    else putAfter (s.rivals.get? key) key blob mode rest
  | .get key, s => pass (.get key) s
  | .delete key, s => pass (.delete key) s
  | .list start, s => pass (.list start) s
  | .head key, s => pass (.head key) s

end Contended

end SnapshotCatalog.Storage
