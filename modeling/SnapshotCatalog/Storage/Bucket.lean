import SnapshotCatalog.Path.Segments
import SnapshotCatalog.Storage.Memory
/-!
A bucket keeps objects under normalised keys: a path is cut into segments, empty ones are dropped
and reserved characters are percent-encoded. Listings and metadata show these keys, and errors show
the path as it was asked. A listing looks below the directory part of what it was asked for and
then compares keys with the text as it was asked, without any encoding.
-/
namespace SnapshotCatalog.Storage

/-- The objects of a bucket by their normalised keys. -/
structure Bucket where
  objects : TextMap Blob

namespace Bucket

def empty : Bucket := ⟨.empty⟩

/-- Whether a key lies strictly below a directory. The empty directory is the whole bucket. -/
def isBelow (directory key : String) : Bool :=
  directory == "" || Text.startsWith key (directory ++ "/")

/-- Whether a listing shows a key. -/
def lists (start key : String) : Bool :=
  isBelow (((Path.directory? start).map Path.key).getD "") key && Text.startsWith key start

/-- Answers a call. -/
def answer : (c : Call) → Bucket → c.Answer × Bucket
  | .get path, b =>
    match b.objects.get? (Path.key path) with
    | some blob => (.ok blob, b)
    | none => (.error (noObject path), b)
  | .put path blob mode, b =>
    if mode = .createNew ∧ b.objects.contains (Path.key path) = true then
      (.ok .alreadyExists, b)
    else (.ok .written, ⟨b.objects.insert (Path.key path) blob⟩)
  | .delete path, b => (.ok (), ⟨b.objects.erase (Path.key path)⟩)
  | .list start, b =>
    (.ok ((b.objects.entries.filter fun entry => lists start entry.1).map Memory.metaOf), b)
  | .head path, b =>
    (.ok ((b.objects.get? (Path.key path)).map fun blob => ⟨Path.key path, blob.size⟩), b)

end Bucket

end SnapshotCatalog.Storage
