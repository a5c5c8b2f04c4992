import SnapshotCatalog.Text.Quoted
/-!
Settings of a catalog: which store it is kept in, below which directory, and how its log is
written. The secret among them is never shown.
-/
namespace SnapshotCatalog

/-- How to reach a bucket. Credentials that are absent are found by the client itself. -/
structure BucketSettings where
  bucket : String
  region : String
  endpoint : Option String
  accessKeyId : Option String
  secretAccessKey : Option String
  allowsHttp : Bool
  deriving DecidableEq

/-- What a secret is shown as. -/
def BucketSettings.redacted : String := "[REDACTED]"

def BucketSettings.describe (s : BucketSettings) : String :=
  "S3Config \x7b bucket: " ++ Text.quoted s.bucket ++ ", region: " ++ Text.quoted s.region ++
    ", endpoint: " ++ Text.quotedOption s.endpoint ++
    ", access_key_id: " ++ Text.quotedOption s.accessKeyId ++
    ", secret_access_key: " ++
    Text.quotedOption (s.secretAccessKey.map fun _ => BucketSettings.redacted) ++
    ", allow_http: " ++ toString s.allowsHttp ++ " \x7d"

/-- Which store the catalog is kept in. -/
inductive StoreChoice where
  | memory
  | folder (root : String)
  | bucket (settings : BucketSettings)
  deriving DecidableEq

namespace StoreChoice

def kind : StoreChoice → String
  | .memory => "memory"
  | .folder _ => "local"
  | .bucket _ => "s3"

/-- The names of the choices, as errors show them. -/
def kinds : String := "memory, local, s3"

def describe : StoreChoice → String
  | .memory => "Memory"
  | .folder root => "Local \x7b root: " ++ Text.quoted root ++ " \x7d"
  | .bucket settings => "S3(" ++ settings.describe ++ ")"

end StoreChoice

inductive LogFormat where
  | pretty
  | json
  deriving DecidableEq, Repr

namespace LogFormat

def name : LogFormat → String
  | .pretty => "pretty"
  | .json => "json"

/-- The names of the formats, as errors show them. -/
def names : String := "pretty, json"

def ofName? (name : String) : Option LogFormat :=
  if name = "pretty" then some .pretty else if name = "json" then some .json else none

def describe : LogFormat → String
  | .pretty => "Pretty"
  | .json => "Json"

end LogFormat

/-- The directory is where the lakehouse lies within its store. -/
structure Config where
  store : StoreChoice
  directory : Option String
  logFormat : LogFormat
  deriving DecidableEq

namespace Config

/-- The settings of a catalog for which nothing is set. -/
def standard : Config := ⟨.memory, none, .pretty⟩

def describe (c : Config) : String :=
  "CatalogConfig \x7b storage: " ++ c.store.describe ++
    ", prefix: " ++ Text.quotedOption c.directory ++
    ", log_format: " ++ c.logFormat.describe ++ " \x7d"

end Config

end SnapshotCatalog
