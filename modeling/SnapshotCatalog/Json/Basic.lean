/-!
JSON values as they were read. The fields of an object keep their order and may repeat, and what a
reader need not be able to represent is kept as far as it matters: a text that is not made of
whole characters, and a number that is too large for any double.
-/
namespace SnapshotCatalog

/-- A JSON value. A text is absent when half of a surrogate pair stands alone in it; of a number
only whether a finite double is near it is kept. -/
inductive Json where
  | null
  | bool (value : Bool)
  | number (finite : Bool)
  | text (value : Option String)
  | array (items : List Json)
  | object (fields : List (Option String × Json))
  deriving Inhabited

namespace Json

/-- How deep arrays and objects are nested. -/
def depth : Json → Nat
  | array items => 1 + itemsDepth items
  | object fields => 1 + fieldsDepth fields
  | _ => 0
where
  itemsDepth : List Json → Nat
    | [] => 0
    | item :: rest => max item.depth (itemsDepth rest)
  fieldsDepth : List (Option String × Json) → Nat
    | [] => 0
    | (_, value) :: rest => max value.depth (fieldsDepth rest)

/-- Whether every text in the value is made of whole characters and every number is finite. -/
def isWhole : Json → Bool
  | number finite => finite
  | text value => value.isSome
  | array items => allWhole items
  | object fields => allFieldsWhole fields
  | _ => true
where
  allWhole : List Json → Bool
    | [] => true
    | item :: rest => item.isWhole && allWhole rest
  allFieldsWhole : List (Option String × Json) → Bool
    | [] => true
    | (name, value) :: rest => name.isSome && value.isWhole && allFieldsWhole rest

/-- The value of a field. A field that occurs twice makes the object unreadable, which is shown by
`none`; a field that does not occur has no value. -/
def field? (name : String) (fields : List (Option String × Json)) : Option (Option Json) :=
  match fields.filter (·.1 == some name) with
  | [] => some none
  | [(_, value)] => some (some value)
  | _ => none

/-- The text that a value must be. -/
def asText? : Json → Option String
  | text value => value
  | _ => none

/-- The text that a value must be unless it is null. -/
def asOptionalText? : Json → Option (Option String)
  | null => some none
  | text value => value.map some
  | _ => none

def asBool? : Json → Option Bool
  | bool value => some value
  | _ => none

/-- A text as a value. -/
def ofText (s : String) : Json := text (some s)

/-- A text or null. -/
def ofOptionalText : Option String → Json
  | none => null
  | some s => ofText s

/-- An object with the given fields. -/
def ofFields (fields : List (String × Json)) : Json :=
  object (fields.map fun (name, value) => (some name, value))

end Json

end SnapshotCatalog
