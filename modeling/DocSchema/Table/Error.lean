import DocSchema.Config
import DocSchema.Schema.Error
import DocSchema.Store.Basic
import DocSchema.Validation.Mismatch

/-!
# Table errors

Errors of the parts pass through a table unchanged and keep their codes.

Section 7 of the specification: `TableError` with its `code`.
-/

namespace DocSchema

inductive TableError where
  | schema (error : SchemaError)
  | path (error : PathError)
  | validation (error : ValidationError)
  | store (error : StoreError)
  | config (error : ConfigError)
  /-- The key is no top-level field of the table. -/
  | unknownKeyField (key table : String)
  | missingPrimaryKey (key : String)
  /-- The value is no string or number of the key's declared type. -/
  | invalidKeyValue (key : String) (value : Json)
deriving DecidableEq, Repr

namespace TableError

def code : TableError → String
  | .schema e => e.code
  | .path e => e.code
  | .validation e => e.code
  | .store e => e.code
  | .config e => e.code
  | .unknownKeyField _ _ => "STRUCTPATH_UNKNOWN_KEY_FIELD"
  | .missingPrimaryKey _ => "STRUCTPATH_MISSING_PRIMARY_KEY"
  | .invalidKeyValue _ _ => "STRUCTPATH_INVALID_KEY_VALUE"

def message : TableError → String
  | .schema e => e.message
  | .path e => e.message
  | .validation e => e.message
  | .store e => e.message
  | .config e => e.message
  | .unknownKeyField key table => s!"Key field '{key}' is not declared by table '{table}'"
  | .missingPrimaryKey key => s!"Record is missing primary key '{key}'"
  | .invalidKeyValue key value => s!"Invalid value {value.text} for key field '{key}'"

end TableError

end DocSchema
