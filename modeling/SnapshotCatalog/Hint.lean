import SnapshotCatalog.Site
import SnapshotCatalog.Text.Blank
/-!
The hint: a small object that names a committed version, most often the newest. It saves existence
probes and nothing depends on it. It may be missing, outdated or spoilt, and a write of it that
fails is only counted.
-/
namespace SnapshotCatalog.Hint

/-- Where the hint lies. -/
def path : String := "_latest_hint.txt"

/-- The version in the text of a hint, which may have blanks around it. -/
def parse (text : String) : Except Error Version :=
  match Numeral.readUnsigned (Text.trim text) with
  | .ok version => .ok version
  | .error fault => .error (.invalidArgument (.hint (Text.trim text) fault))

/-- The version in the bytes of a hint, if there is one. -/
def version? (data : List UInt8) : Option Version :=
  (Text.ofBytes? data).bind fun text => (parse text).toOption

/-- What was found instead of a version. -/
def fallback (reason : FallbackReason) : Program Version := do
  Program.record (.hintFallback reason)
  return 0

/-- The version that the hint names, or 0 when it is of no use. -/
def read (site : Site) : Program Version := do
  match ← (site.read path).attempt with
  | .error error => fallback (if error.isNotFound then .missing else .unreadable)
  | .ok blob =>
    match version? blob.data with
    | some version => return version
    | none => fallback .unparsable

/-- Names a version in the hint. A failure is recorded and is none of the caller's. -/
def write (site : Site) (version : Version) : Program Unit := do
  let text := Numeral.ofNat version.toNat
  match ← (site.overwrite path (.bytes (Text.bytes text))).attempt with
  | .ok () => return ()
  | .error _ => Program.record .hintWriteFailure

end SnapshotCatalog.Hint
