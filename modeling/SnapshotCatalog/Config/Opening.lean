import SnapshotCatalog.Config.Basic
import SnapshotCatalog.Site
import SnapshotCatalog.Storage.Backend
/-!
Opening the store that settings choose. A folder is made where it is missing, which fails below what
is no folder and where only the system makes folders. The client of a bucket needs both halves of
its credentials or none.
-/
namespace SnapshotCatalog

/-- What is no folder on any host: devices and files of the system. -/
def StoreChoice.systemFiles : List String :=
  ["/dev/null", "/dev/zero", "/dev/full", "/dev/random", "/dev/urandom", "/dev/tty",
    "/dev/stdin", "/dev/stdout", "/dev/stderr", "/etc/passwd", "/etc/group", "/etc/hosts",
    "/etc/hostname", "/etc/resolv.conf", "/bin/sh"]

/-- The folders of every host in which only the system itself makes anything. -/
def StoreChoice.sealedFolders : List String :=
  ["/dev/fd", "/dev/pts", "/proc", "/proc/1", "/proc/bus", "/proc/fs", "/proc/irq", "/proc/net",
    "/proc/self", "/proc/self/attr", "/proc/self/fd", "/proc/self/fdinfo", "/proc/self/net",
    "/proc/self/ns", "/proc/self/task", "/proc/sys", "/proc/sys/fs", "/proc/sys/kernel",
    "/proc/sys/net", "/proc/sys/vm", "/proc/thread-self", "/proc/tty", "/sys", "/sys/block",
    "/sys/bus", "/sys/class", "/sys/dev", "/sys/devices", "/sys/firmware", "/sys/fs",
    "/sys/kernel", "/sys/module", "/sys/power"]

/-- The folder from which paths without a slash at their beginning lead on. Where it lies is not
known. -/
def StoreChoice.workingFolder : List (List Char) := [['.']]

/-- Names of every host that lead to a folder elsewhere: to the top, or to the working folder. -/
def StoreChoice.links : List (String × List (List Char)) :=
  [("/proc/self/root", []), ("/proc/self/cwd", workingFolder)]

/-- The names in a path. A name of one dot leads nowhere. -/
def StoreChoice.names (root : String) : List (List Char) :=
  (Path.segments root.toList).filter fun seg => !seg.isEmpty && seg != ['.']

/-- Whether folders can be made along names, from a folder on. Two dots lead back. -/
def StoreChoice.canMake (above : List (List Char)) : List (List Char) → Bool
  | [] => true
  | seg :: rest =>
    if seg = ['.', '.'] then canMake above.dropLast rest
    else
      let here := above ++ [seg]
      let placeOf (names : List (List Char)) := String.ofList ('/' :: Path.joinSegments names)
      match links.lookup (placeOf here) with
      | some target => canMake target rest
      | none =>
        (String.ofList seg).utf8ByteSize ≤ Storage.Folder.nameMax &&
          !systemFiles.contains (placeOf here) &&
          (!sealedFolders.contains (placeOf above) || sealedFolders.contains (placeOf here)) &&
          canMake here rest

/-- Whether the folder at a path can be made where it is missing. What slashes and dots alone lead
to from the top is there already, however long the path; any other path has a greatest length. -/
def StoreChoice.canMakeRoot (root : String) : Bool :=
  let isAbsolute := Text.startsWith root "/"
  isAbsolute && (names root).isEmpty ||
    root.utf8ByteSize ≤ Storage.Folder.pathMax && !root.toList.contains '\x00' &&
      canMake (if isAbsolute then [] else workingFolder) (names root)

/-- Opens the folder at a path. -/
def StoreChoice.openRoot (root : String) : Except Error Storage.Backend :=
  if root = "" then .error (.storageRead (.openRoot root) (some ""))
  else if canMakeRoot root then .ok (.folder (.empty root.utf8ByteSize))
  else .error (.storageWrite (.createRoot root) (some ""))

/-- Checks the credentials of a bucket. -/
def BucketSettings.check (s : BucketSettings) : Except Error Unit :=
  match s.accessKeyId, s.secretAccessKey with
  | some _, none => absent "SecretAccessKey"
  | none, some _ => absent "AccessKeyId"
  | _, _ => .ok ()
where
  absent (half : String) : Except Error Unit :=
    .error (.invalidArgument (.setting (.credentials s.bucket half)))

/-- Opens a store that nobody has written to yet. -/
def StoreChoice.openEmpty : StoreChoice → Except Error Storage.Backend
  | .memory => .ok (.memory .empty)
  | .folder root => openRoot root
  | .bucket settings => do
    settings.check
    return .bucket .empty

/-- Opens the store and finds the place of the lakehouse in it. -/
def Config.openEmpty (c : Config) : Except Error (Storage.Backend × Site) := do
  let backend ← c.store.openEmpty
  match c.directory with
  | some directory => return (backend, ← Site.below directory)
  | none => return (backend, .top)

end SnapshotCatalog
