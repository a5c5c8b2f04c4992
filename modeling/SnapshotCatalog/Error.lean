import SnapshotCatalog.Text.Quoted
import SnapshotCatalog.Text.Numeral
import SnapshotCatalog.Path.Root
import SnapshotCatalog.TransactionId
import SnapshotCatalog.Wire.Field
import SnapshotCatalog.Node.File
/-!
What can go wrong, by cause. An error belongs to one of eight kinds; within a kind each cause has
a constructor of its own and carries what its message shows. Only a lost race for a version may be
retried, and only by beginning the transaction again.
-/
namespace SnapshotCatalog

open Text (quoted quotedChar)

/-- Why a path may not be used. -/
inductive PathFault where
  | missing
  | absolute (path : String)
  | backslash (path : String)
  | percent (path : String)
  | control (path : String)
  | traversal (path : String)
  deriving DecidableEq, Repr

def PathFault.message : PathFault → String
  | .missing => "path must be provided"
  | .absolute path => "absolute paths not allowed: " ++ path
  | .backslash path => "backslashes not allowed in paths: " ++ path
  | .percent path => "percent-encoding not allowed in paths: " ++ path
  | .control path => "control characters not allowed in paths: " ++ quoted path
  | .traversal path => "path traversal not allowed: " ++ path

/-- Why a name may not be used. `kind` says what is named. -/
inductive NameFault where
  | missing (kind : String)
  | tooLong (kind name : String) (limit : Nat)
  | reserved (kind name : String) (c : Char)
  | pathCharacter (kind name : String) (c : Char)
  deriving DecidableEq, Repr

def NameFault.message : NameFault → String
  | .missing kind => kind ++ " name must be provided"
  | .tooLong kind name limit =>
    kind ++ " name " ++ name ++ " must be less than or equal to " ++ Numeral.ofNat limit ++
      " bytes in lakehouse definition"
  | .reserved kind name c =>
    kind ++ " name " ++ quoted name ++ " contains reserved character " ++ quotedChar c
  | .pathCharacter kind name c =>
    kind ++ " name " ++ quoted name ++ " contains path character " ++ quotedChar c

/-- Why a setting may not be used. `setting` says which. -/
inductive SettingFault where
  | missing (setting backend : String)
  | unknown (setting choices found : String)
  | notBoolean (setting : String)
  | credentials (bucket absent : String)
  deriving DecidableEq, Repr

def SettingFault.message : SettingFault → String
  | .missing setting backend => setting ++ " is required for " ++ backend ++ " storage"
  | .unknown setting choices found =>
    setting ++ " must be one of: " ++ choices ++ " (got " ++ found ++ ")"
  | .notBoolean setting => setting ++ " must be a boolean (true/false/1/0)"
  | .credentials bucket absent =>
    "invalid S3 configuration for bucket " ++ bucket ++ ": Generic S3 error: Missing " ++ absent

/-- Which rule an argument breaks. -/
inductive ArgumentFault where
  | path (fault : PathFault)
  | name (fault : NameFault)
  | setting (fault : SettingFault)
  | rootPath (path : String)
  | hint (text : String) (fault : Numeral.Fault)
  | namespaceKey (key : String)
  | tableKey (key : String)
  | transactionId (text : String) (fault : TransactionId.Fault)
  | zeroLimit (limit : String)
  | namespaceNotEmpty (name : String)
  | nodeTooLarge (size limit : Nat)
  | nothingToCommit
  | beginningNotPersisted (id : TransactionId)
  | noVersionsLeft
  | rootNotPersisted
  | described (message : String)

def ArgumentFault.message : ArgumentFault → String
  | .path fault => fault.message
  | .name fault => fault.message
  | .setting fault => fault.message
  | .rootPath found =>
    "root path must match pattern ^_[01]\x7b64\x7d\\.ipc$, got " ++ quoted found
  | .hint text fault => "invalid version hint " ++ quoted text ++ ": " ++ fault.message
  | .namespaceKey key => "Invalid namespace key: " ++ quoted key
  | .tableKey key => "Invalid table key: " ++ quoted key
  | .transactionId text fault => "invalid transaction ID '" ++ text ++ "': " ++ fault.message
  | .zeroLimit limit => "lakehouse definition " ++ limit ++ " must be positive"
  | .namespaceNotEmpty ns => "namespace " ++ ns ++ " still contains tables"
  | .nodeTooLarge size limit =>
    "root node of " ++ Numeral.ofNat size ++ " bytes exceeds node_file_max_size_bytes " ++
      Numeral.ofNat limit
  | .nothingToCommit => "nothing to commit"
  | .beginningNotPersisted id =>
    "beginning root of transaction " ++ id.text ++ " is not persisted"
  | .noVersionsLeft => "no versions left after u64::MAX"
  | .rootNotPersisted => "root has not been persisted"
  | .described message => message

/-- An argument's own message, with what kind of error it is. -/
def ArgumentFault.fullMessage (fault : ArgumentFault) : String :=
  "invalid argument: " ++ fault.message

/-- Why a root has no predecessor where it should have one. -/
inductive BrokenLink where
  | firstHasPrevious (previous : String)
  | missing
  | malformed (previous : String)
  | skips (version previous : Version)
  | dangling (previous : String)
  deriving DecidableEq, Repr

def BrokenLink.message : BrokenLink → String
  | .firstHasPrevious previous => "version 0 points at previous root " ++ previous
  | .missing => "missing previous root pointer"
  | .malformed previous =>
    "invalid previous root pointer: " ++ (ArgumentFault.rootPath previous).fullMessage
  | .skips version previous =>
    "version " ++ Numeral.ofNat version.toNat ++ " points at version " ++
      Numeral.ofNat previous.toNat
  | .dangling previous => "previous root " ++ previous ++ " does not exist"

/-- What was looked for and is not there. -/
inductive Absence where
  | entity (kind id : String)
  | uninitialized
  | unreachable (version : Version) (path : String) (link : BrokenLink)
  | beforeFirst (time : Int64)
  | beforeReachable (time : Int64) (path : String) (link : BrokenLink)
  | described (message : String)

def Absence.message : Absence → String
  | .entity kind id => kind ++ " " ++ id ++ " does not exist"
  | .uninitialized => "lakehouse is not initialized: " ++ RootPath.ofVersion 0 ++ " does not exist"
  | .unreachable version path link =>
    "version " ++ Numeral.ofNat version.toNat ++ " is unreachable: chain breaks at " ++ path ++
      ": " ++ link.message
  | .beforeFirst time => "no root was created at or before " ++ Numeral.ofInt time.toInt
  | .beforeReachable time path link =>
    "no reachable root was created at or before " ++ Numeral.ofInt time.toInt ++
      ": chain breaks at " ++ path ++ ": " ++ link.message
  | .described message => message

/-- What should be new and is there already. -/
inductive Presence where
  | entity (kind id : String)
  | initialized
  | described (message : String)

def Presence.message : Presence → String
  | .entity kind id => kind ++ " " ++ id ++ " already exists"
  | .initialized => "lakehouse is already initialized: " ++ RootPath.ofVersion 0 ++ " exists"
  | .described message => message

/-- Which read failed. -/
inductive ReadFault where
  | injected (path : String)
  | object (path : String)
  | metadata (path : String)
  | listing (start : String)
  | openRoot (path : String)
  | described (message : String)

def ReadFault.message : ReadFault → String
  | .injected path => "injected failure for path: " ++ path
  | .object path => "read " ++ path
  | .metadata path => "head " ++ path
  | .listing start => "list " ++ start
  | .openRoot path => "open local storage root " ++ path
  | .described message => message

/-- Which write failed. -/
inductive WriteFault where
  | injected (path : String)
  | object (path : String)
  | deletion (path : String)
  | createRoot (path : String)
  | definitionTaken (path : String)
  | overwriteRefused (path : String)
  | described (message : String)

def WriteFault.message : WriteFault → String
  | .injected path => "injected failure for path: " ++ path
  | .object path => "write " ++ path
  | .deletion path => "delete " ++ path
  | .createRoot path => "create local storage root " ++ path
  | .definitionTaken path => "definition file " ++ path ++ " already exists"
  | .overwriteRefused path => "overwrite of " ++ path ++ " was reported as already existing"
  | .described message => message

/-- How stored state contradicts the rules of the catalog. -/
inductive Corruption where
  | definition (e : Wire.DecodeError)
  | zeroLimit (limit : String)
  | unreadable
  | fields (found : List Node.Field)
  | nulls (column : Nat)
  | duplicateKey (key : String)
  | unknownKey (key : String)
  | badCreationTime (text : String) (fault : Numeral.Fault)
  | badRowCount (text : String) (fault : Numeral.Fault)
  | missingRow (key : String)
  | rowCount (recorded : UInt64) (read : Nat)
  | brokenLink (link : BrokenLink)
  | described (message : String)

def Corruption.message : Corruption → String
  | .definition e => "invalid definition: " ++ e.message
  | .zeroLimit limit =>
    "invalid lakehouse definition: " ++ (ArgumentFault.zeroLimit limit).fullMessage
  | .unreadable => "invalid node file: not a table of columns"
  | .fields found =>
    "unexpected node schema: " ++ String.intercalate ", " (found.map Node.Field.describe)
  | .nulls column => "column " ++ Numeral.ofNat column ++ " contains nulls"
  | .duplicateKey key => "duplicate key " ++ quoted key
  | .unknownKey key => "unknown key " ++ quoted key
  | .badCreationTime text fault =>
    "invalid created_at_millis " ++ quoted text ++ ": " ++ fault.message
  | .badRowCount text fault => "invalid n_keys " ++ quoted text ++ ": " ++ fault.message
  | .missingRow key => "missing " ++ key
  | .rowCount recorded read =>
    "n_keys records " ++ Numeral.ofNat recorded.toNat ++ " rows but " ++ Numeral.ofNat read ++
      " were read"
  | .brokenLink link => link.message
  | .described message => message

/-- An error by kind. A failed read or write may name what the storage said about it. -/
inductive Error where
  | invalidArgument (fault : ArgumentFault)
  | objectNotFound (absence : Absence)
  | objectAlreadyExists (presence : Presence)
  | commitFailure (version : Version) (path : String)
  | storageRead (fault : ReadFault) (source : Option String)
  | storageWrite (fault : WriteFault) (source : Option String)
  | corrupted (path : String) (corruption : Corruption)
  | internal (message : String)

namespace Error

/-- The text of an error, its kind in front. -/
def message : Error → String
  | .invalidArgument fault => fault.fullMessage
  | .objectNotFound absence => "not found: " ++ absence.message
  | .objectAlreadyExists presence => "already exists: " ++ presence.message
  | .commitFailure version path =>
    "commit failed: version " ++ Numeral.ofNat version.toNat ++ " already exists at " ++ path
  | .storageRead fault _ => "storage read failed: " ++ fault.message
  | .storageWrite fault _ => "storage write failed: " ++ fault.message
  | .corrupted path corruption =>
    "corrupted catalog state at " ++ path ++ ": " ++ corruption.message
  | .internal message => "internal error: " ++ message

/-- Whether the caller may begin again and retry. -/
def isRetryable : Error → Bool
  | .commitFailure .. => true
  | _ => false

/-- Whether something that was looked for is not there. -/
def isNotFound : Error → Bool
  | .objectNotFound _ => true
  | _ => false

/-- What the storage said about a failed read or write. -/
def source? : Error → Option String
  | .storageRead _ source => source
  | .storageWrite _ source => source
  | _ => none

end Error

end SnapshotCatalog
