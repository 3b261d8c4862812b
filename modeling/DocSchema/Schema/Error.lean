import DocSchema.Path.Basic
import DocSchema.Schema.Basic
import DocSchema.Schema.KeyName

/-!
# Schema errors

Why a schema does not compile, or why a schema file cannot be used.

Section 7 of the specification: `SchemaError` with its `code`, and `malformed` of the schema loader.
-/

namespace DocSchema

/-- What failed about a schema file or the directory of schema files. -/
inductive FileFault where
  | readDirectory
  | readFile
  | invalidJson
  | createDirectory
  | writeFile
deriving DecidableEq, Repr

namespace FileFault

def reason : FileFault → String
  | .readDirectory => "Failed to read directory"
  | .readFile => "Failed to read file"
  | .invalidJson => "Invalid JSON"
  | .createDirectory => "Failed to create directory"
  | .writeFile => "Failed to write file"

end FileFault

inductive SchemaError where
  | invalidFieldName (schema name : String) (fault : NameFault)
  | invalidKeyNameUsage (field keyName : String) (type : TypeTag)
  | invalidKeyName (field keyName : String) (fault : NameFault)
  | invalidMaxNestedDepth (field : String) (value : Nat)
  | invalidSelfRef (field : String)
  | unboundedRecursion (field : String)
  | pathTooDeep (path : String) (depth : Nat)
  | duplicatePath (path : String)
  | alreadyRegistered (name : String)
  | malformed (file : String) (fault : FileFault)
deriving DecidableEq, Repr

namespace SchemaError

def code : SchemaError → String
  | .invalidFieldName .. => "STRUCTPATH_SCHEMA_INVALID_FIELD_NAME"
  | .invalidKeyNameUsage .. => "STRUCTPATH_SCHEMA_INVALID_KEY_NAME_USAGE"
  | .invalidKeyName .. => "STRUCTPATH_SCHEMA_INVALID_KEY_NAME"
  | .invalidMaxNestedDepth .. => "STRUCTPATH_SCHEMA_INVALID_MAX_NESTED_DEPTH"
  | .invalidSelfRef .. => "STRUCTPATH_SCHEMA_INVALID_SELF_REF"
  | .unboundedRecursion .. => "STRUCTPATH_SCHEMA_UNBOUNDED_RECURSION"
  | .pathTooDeep .. => "STRUCTPATH_SCHEMA_PATH_TOO_DEEP"
  | .duplicatePath .. => "STRUCTPATH_SCHEMA_DUPLICATE_PATH"
  | .alreadyRegistered .. => "STRUCTPATH_SCHEMA_ALREADY_REGISTERED"
  | .malformed .. => "STRUCTPATH_SCHEMA_MALFORMED"

def message : SchemaError → String
  | .invalidFieldName schema name fault =>
    s!"Invalid field name '{name}' in schema '{schema}': {fault.reason}"
  | .invalidKeyNameUsage field keyName type =>
    s!"key_name '{keyName}' cannot be set on field '{field}' of type {type.name}"
  | .invalidKeyName field keyName fault =>
    s!"Invalid key_name '{keyName}' on field '{field}': {fault.reason}"
  | .invalidMaxNestedDepth field value =>
    s!"max_nested_depth {value} on field '{field}' must be between 1 and {Path.maxDepth}"
  | .invalidSelfRef field =>
    s!"Field '{field}' uses self_ref outside of a keyed collection"
  | .unboundedRecursion field =>
    s!"Self-referencing collection '{field}' requires an indexed key_name containing " ++
      "'\x7bi\x7d'"
  | .pathTooDeep path depth =>
    s!"Path '{path}' has {depth} elements, exceeding the maximum of {Path.maxDepth}"
  | .duplicatePath path => s!"Path '{path}' is declared more than once"
  | .alreadyRegistered name => s!"Schema '{name}' is already registered"
  | .malformed file fault => s!"Malformed schema file '{file}': {fault.reason}"

end SchemaError

end DocSchema
