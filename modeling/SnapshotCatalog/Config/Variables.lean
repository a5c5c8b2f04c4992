import SnapshotCatalog.Config.Basic
import SnapshotCatalog.Error
import SnapshotCatalog.Text.Blank
/-!
Settings from named variables. Blanks around a value do not count, a blank value counts as none,
and words may be in any case. The error for a value that is missing or makes no sense names the
variable.
-/
namespace SnapshotCatalog.Config

/-- The value of a variable, if it is not blank. -/
def setting? (lookUp : String → Option String) (name : String) : Option String :=
  (lookUp name).bind fun value => if Text.trim value = "" then none else some (Text.trim value)

/-- The value of a variable in lower case, if it is not blank. -/
def word? (lookUp : String → Option String) (name : String) : Option String :=
  (setting? lookUp name).map Text.lower

/-- The value of a variable that must be set for a kind of store. -/
def required (lookUp : String → Option String) (name kind : String) : Except Error String :=
  match setting? lookUp name with
  | some value => .ok value
  | none => .error (.invalidArgument (.setting (.missing name kind)))

/-- Reads yes or no. -/
def readBool (name value : String) : Except Error Bool :=
  let word := Text.lower value
  if ["true", "1", "yes", "y"].contains word then .ok true
  else if ["false", "0", "no", "n"].contains word then .ok false
  else .error (.invalidArgument (.setting (.notBoolean name)))

/-- Yes or no from a variable; no if it is not set. -/
def flag (lookUp : String → Option String) (name : String) : Except Error Bool :=
  match setting? lookUp name with
  | some value => readBool name value
  | none => .ok false

def standardRegion : String := "us-east-1"

def readBucket (lookUp : String → Option String) : Except Error BucketSettings := do
  let bucket ← required lookUp "TIDAL_S3_BUCKET" "s3"
  let allowsHttp ← flag lookUp "TIDAL_S3_ALLOW_HTTP"
  return { bucket, allowsHttp,
           region := (setting? lookUp "TIDAL_S3_REGION").getD standardRegion,
           endpoint := setting? lookUp "TIDAL_S3_ENDPOINT",
           accessKeyId := setting? lookUp "TIDAL_S3_ACCESS_KEY_ID",
           secretAccessKey := setting? lookUp "TIDAL_S3_SECRET_ACCESS_KEY" }

def readStore (lookUp : String → Option String) : Except Error StoreChoice :=
  match word? lookUp "TIDAL_STORAGE" with
  | none => .ok .memory
  | some word =>
    if word = "memory" then .ok .memory
    else if word = "local" then return .folder (← required lookUp "TIDAL_LOCAL_ROOT" "local")
    else if word = "s3" then return .bucket (← readBucket lookUp)
    else .error (.invalidArgument (.setting (.unknown "TIDAL_STORAGE" StoreChoice.kinds word)))

def readLogFormat (lookUp : String → Option String) : Except Error LogFormat :=
  match word? lookUp "TIDAL_LOG_FORMAT" with
  | none => .ok .pretty
  | some word =>
    match LogFormat.ofName? word with
    | some format => .ok format
    | none =>
      .error (.invalidArgument (.setting (.unknown "TIDAL_LOG_FORMAT" LogFormat.names word)))

/-- The settings that variables hold. -/
def ofVariables (lookUp : String → Option String) : Except Error Config := do
  let store ← readStore lookUp
  let logFormat ← readLogFormat lookUp
  return { store, logFormat, directory := setting? lookUp "TIDAL_PREFIX" }

end SnapshotCatalog.Config
