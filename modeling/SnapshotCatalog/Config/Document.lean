import SnapshotCatalog.Config.Basic
import SnapshotCatalog.Json.Reader
/-!
Settings as JSON. Fields that are not known do not count, but a known field may occur only once.
Settings may also be given as an array in the order of their fields. The choice of a store is
tagged with its kind; because its other fields are kept until the tag is known, everything in it
must be representable and must not be nested too deep.
-/
namespace SnapshotCatalog

/-- The value at a place of an array, of a field that has a standard value. -/
def Json.itemOr {α : Type} (standard : α) (read : Json → Option α) : Option Json → Option α
  | none => some standard
  | some j => read j

/-- The value of a field that has a standard value. -/
def Json.fieldOr {α : Type} (standard : α) (read : Json → Option α) (name : String)
    (fields : List (Option String × Json)) : Option α := do
  Json.itemOr standard read (← Json.field? name fields)

/-- The value of a field that must occur. -/
def Json.requiredField {α : Type} (read : Json → Option α) (name : String)
    (fields : List (Option String × Json)) : Option α := do
  read (← ← Json.field? name fields)

namespace BucketSettings

def ofFields? (fields : List (Option String × Json)) : Option BucketSettings := do
  return { bucket := ← Json.requiredField Json.asText? "bucket" fields
           region := ← Json.requiredField Json.asText? "region" fields
           endpoint := ← Json.fieldOr none Json.asOptionalText? "endpoint" fields
           accessKeyId := ← Json.fieldOr none Json.asOptionalText? "access_key_id" fields
           secretAccessKey := ← Json.fieldOr none Json.asOptionalText? "secret_access_key" fields
           allowsHttp := ← Json.fieldOr false Json.asBool? "allow_http" fields }

def ofItems? (items : List Json) : Option BucketSettings := do
  if 6 < items.length then none
  else
    return { bucket := ← Json.asText? (← items[0]?)
             region := ← Json.asText? (← items[1]?)
             endpoint := ← Json.itemOr none Json.asOptionalText? items[2]?
             accessKeyId := ← Json.itemOr none Json.asOptionalText? items[3]?
             secretAccessKey := ← Json.itemOr none Json.asOptionalText? items[4]?
             allowsHttp := ← Json.itemOr false Json.asBool? items[5]? }

def ofJson? : Json → Option BucketSettings
  | .object fields => if fields.all (·.1.isSome) then ofFields? fields else none
  | .array items => ofItems? items
  | _ => none

def toFields (s : BucketSettings) : List (String × Json) :=
  [("bucket", .ofText s.bucket), ("region", .ofText s.region),
    ("endpoint", .ofOptionalText s.endpoint), ("access_key_id", .ofOptionalText s.accessKeyId),
    ("secret_access_key", .ofOptionalText s.secretAccessKey), ("allow_http", .bool s.allowsHttp)]

end BucketSettings

namespace StoreChoice

/-- The name of the field that tells the kind of store. -/
def tag : String := "type"

/-- How deep a choice may be nested. -/
def depthMax : Nat := 126

def ofFields? (fields : List (Option String × Json)) : Option StoreChoice := do
  let kind ← Json.requiredField Json.asText? tag fields
  let rest := fields.filter (·.1 != some tag)
  if kind = "memory" then some .memory
  else if kind = "local" then return .folder (← Json.requiredField Json.asText? "root" rest)
  else if kind = "s3" then return .bucket (← BucketSettings.ofFields? rest)
  else none

def ofItems? (items : List Json) : Option StoreChoice := do
  let kind ← Json.asText? (← items[0]?)
  if kind = "memory" then if items.length = 1 then some .memory else none
  else if kind = "local" then
    if items.length = 2 then return .folder (← Json.asText? (← items[1]?)) else none
  else if kind = "s3" then return .bucket (← BucketSettings.ofItems? (items.drop 1))
  else none

def ofJson? (j : Json) : Option StoreChoice :=
  if !j.isWhole || depthMax < j.depth then none
  else
    match j with
    | .object fields => ofFields? fields
    | .array items => ofItems? items
    | _ => none

def toJson : StoreChoice → Json
  | .memory => .ofFields [(tag, .ofText "memory")]
  | .folder root => .ofFields [(tag, .ofText "local"), ("root", .ofText root)]
  | .bucket settings => .ofFields ((tag, .ofText "s3") :: settings.toFields)

end StoreChoice

/-- A format is given by its name, or as an object whose only field has that name and is null. -/
def LogFormat.ofJson? : Json → Option LogFormat
  | .text (some name) => LogFormat.ofName? name
  | .object [(some name, .null)] => LogFormat.ofName? name
  | _ => none

namespace Config

def ofFields? (fields : List (Option String × Json)) : Option Config := do
  if fields.all (·.1.isSome) then
    return { store := ← Json.fieldOr .memory StoreChoice.ofJson? "storage" fields
             directory := ← Json.fieldOr none Json.asOptionalText? "prefix" fields
             logFormat := ← Json.fieldOr .pretty LogFormat.ofJson? "log_format" fields }
  else none

def ofItems? (items : List Json) : Option Config := do
  if 3 < items.length then none
  else
    return { store := ← Json.itemOr .memory StoreChoice.ofJson? items[0]?
             directory := ← Json.itemOr none Json.asOptionalText? items[1]?
             logFormat := ← Json.itemOr .pretty LogFormat.ofJson? items[2]? }

def ofJson? : Json → Option Config
  | .object fields => ofFields? fields
  | .array items => ofItems? items
  | _ => none

/-- The settings that a text spells. -/
def read? (text : String) : Option Config := (Json.read? text).bind ofJson?

def toJson (c : Config) : Json :=
  .ofFields [("storage", c.store.toJson), ("prefix", .ofOptionalText c.directory),
    ("log_format", .ofText c.logFormat.name)]

end Config

end SnapshotCatalog
