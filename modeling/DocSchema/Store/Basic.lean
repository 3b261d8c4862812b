import DocSchema.Coercion
import DocSchema.Json.Form
import DocSchema.Json.Text
import DocSchema.Path.Basic

/-!
# Document stores

A store keeps the records of one table under their keys. Its operations may change the store even when they
fail, so they are state transformers that keep the state on an error.

Section 6 of the specification, the collaborator: `RecordKey`, `StoreError` and `DocumentStore`, whose
`get_fields` and `coercion` have defaults.
-/

namespace DocSchema

/-- The name and the value of the attribute that identifies a record. The value keeps its JSON type. -/
structure RecordKey where
  name : String
  value : Json
deriving DecidableEq, Repr

namespace RecordKey

/-- How a key is named in reports: strings stand without quotes. -/
def text (k : RecordKey) : String :=
  match k.value with
  | .str s => s!"{k.name}={s}"
  | v => s!"{k.name}={v.text}"

/-- Records are told apart by the text of the key value, in which strings are quoted. -/
def id (k : RecordKey) : String :=
  k.value.text

def toJson (k : RecordKey) : Json :=
  .obj [("name", .str k.name), ("value", k.value)]

def ofTree? (t : Json.Tree) : Option RecordKey := do
  let parts ← t.parts? ["name", "value"]
  return ⟨← parts.require Json.Tree.str? "name", ← parts.require Json.Tree.value? "value"⟩

end RecordKey

inductive StoreOperation where
  | getField
  | setFields
  | removeFields
  | putRecord
  | getRecord
  | deleteRecord
  | queryByKey
deriving DecidableEq, Repr

namespace StoreOperation

def name : StoreOperation → String
  | .getField => "get_field"
  | .setFields => "set_fields"
  | .removeFields => "remove_fields"
  | .putRecord => "put_record"
  | .getRecord => "get_record"
  | .deleteRecord => "delete_record"
  | .queryByKey => "query_by_key"

def all : List StoreOperation :=
  [.getField, .setFields, .removeFields, .putRecord, .getRecord, .deleteRecord, .queryByKey]

def ofName? (name : String) : Option StoreOperation :=
  all.find? fun o => o.name = name

end StoreOperation

inductive StoreError where
  | unrenderedPlaceholder (name : String)
  /-- The level under `step` is there and is not a map. -/
  | pathConflict (path : Path) (step : PathStep)
  | emptyPath
  /-- The record under `key` is not a map. -/
  | invalidRecord (key : RecordKey)
  | unavailable (operation : StoreOperation)
deriving DecidableEq, Repr

namespace StoreError

def code : StoreError → String
  | .unrenderedPlaceholder _ => "STRUCTPATH_STORE_UNRENDERED_PLACEHOLDER"
  | .pathConflict _ _ => "STRUCTPATH_STORE_PATH_CONFLICT"
  | .emptyPath => "STRUCTPATH_STORE_EMPTY_PATH"
  | .invalidRecord _ => "STRUCTPATH_STORE_INVALID_RECORD"
  | .unavailable _ => "STRUCTPATH_STORE_BACKEND"

def message : StoreError → String
  | .unrenderedPlaceholder name => s!"Path contains unrendered placeholder '{name}'"
  | .pathConflict path step => s!"Cannot traverse '{path.text}': '{step.key.label}' is not a map"
  | .emptyPath => "Field path is empty"
  | .invalidRecord key => s!"Invalid record: record {key.text} is not a map"
  | .unavailable operation => s!"Store backend error: {operation.name} failed"

end StoreError

abbrev StoreM (σ : Type) := ExceptT StoreError (StateM σ)

/-- What a table asks of the store behind it. Paths are rendered before they are passed on. -/
class DocumentStore (σ : Type) where
  getField : RecordKey → Path → StoreM σ (Option Json)
  /-- Several fields of one record. A store without a way of its own reads them one after the other, up to the first
  error. -/
  getFields : RecordKey → List Path → StoreM σ (List (Option Json)) :=
    fun key paths => paths.mapM (getField key)
  setFields : RecordKey → List (Path × Json) → StoreM σ Unit
  removeFields : RecordKey → List Path → StoreM σ Unit
  putRecord : RecordKey → Json → StoreM σ Unit
  getRecord : RecordKey → StoreM σ (Option Json)
  deleteRecord : RecordKey → StoreM σ Bool
  /-- The values at the paths in each record whose attribute equals the key, absent ones left open. -/
  queryByKey : RecordKey → List Path → Option Nat → StoreM σ (List (List (Option Json)))
  /-- What the store makes of numbers: nothing, unless it says otherwise. -/
  coercion : σ → Coercion := fun _ => .passThrough

end DocSchema
