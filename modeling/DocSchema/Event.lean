import DocSchema.Assoc

/-!
# Events

What the library reports about its work. Each event has a stable name and a severity and is logged with
named texts; the known names become fields of the record, all others are gathered in one extra field.

Section 10.2 of the specification: `Event` with `as_str` and `severity`, and `log_event_with_fields`.
-/

namespace DocSchema

inductive Severity where
  | debug
  | info
  | warn
  | error
deriving DecidableEq, Repr

namespace Severity

def rank : Severity → Nat
  | .debug => 0
  | .info => 1
  | .warn => 2
  | .error => 3

def name : Severity → String
  | .debug => "Debug"
  | .info => "Info"
  | .warn => "Warn"
  | .error => "Error"

/-- The name of the level at which records of this severity are written. -/
def level : Severity → String
  | .debug => "DEBUG"
  | .info => "INFO"
  | .warn => "WARN"
  | .error => "ERROR"

end Severity

inductive Event where
  | configLoaded
  | schemasLoaded
  | schemaCompileBegin
  | schemaCompileComplete
  | pathSkipped
  | fieldDropped
  | valueRejected
  | requiredFieldInvalid
  | storeGet
  | storeSet
  | storeRemove
  | storeQuery
  | recordPut
  | recordDelete
deriving DecidableEq, Repr

namespace Event

def all : List Event :=
  [.configLoaded, .schemasLoaded, .schemaCompileBegin, .schemaCompileComplete, .pathSkipped,
    .fieldDropped, .valueRejected, .requiredFieldInvalid, .storeGet, .storeSet, .storeRemove,
    .storeQuery, .recordPut, .recordDelete]

def name : Event → String
  | .configLoaded => "CONFIG_LOADED"
  | .schemasLoaded => "SCHEMAS_LOADED"
  | .schemaCompileBegin => "SCHEMA_COMPILE_BEGIN"
  | .schemaCompileComplete => "SCHEMA_COMPILE_COMPLETE"
  | .pathSkipped => "PATH_SKIPPED_TOO_DEEP"
  | .fieldDropped => "FIELD_DROPPED"
  | .valueRejected => "VALUE_REJECTED"
  | .requiredFieldInvalid => "REQUIRED_FIELD_INVALID"
  | .storeGet => "STORE_GET"
  | .storeSet => "STORE_SET"
  | .storeRemove => "STORE_REMOVE"
  | .storeQuery => "STORE_QUERY"
  | .recordPut => "RECORD_PUT"
  | .recordDelete => "RECORD_DELETE"

def ofName? (name : String) : Option Event :=
  all.find? fun e => e.name = name

/-- Requests are details, lost data is a warning, a failed requirement an error. -/
def severity : Event → Severity
  | .pathSkipped | .fieldDropped | .valueRejected => .warn
  | .requiredFieldInvalid => .error
  | .storeGet | .storeSet | .storeRemove | .storeQuery => .debug
  | _ => .info

end Event

/-- An event with its named texts, as given. -/
structure LogEntry where
  event : Event
  fields : Assoc String
deriving DecidableEq, Repr

namespace LogEntry

def knownNames : List String :=
  ["actual", "count", "depth", "dir", "dropped", "expected", "field", "key", "max_nested_depth", "path",
    "paths", "schema", "skipped", "table"]

def isKnown (name : String) : Bool :=
  knownNames.contains name

/-- The unknown fields in ascending order of their names, fields of one name in the order given. -/
def extraFields (e : LogEntry) : Assoc String :=
  (e.fields.filter fun f => !isKnown f.1).mergeSort fun a b => a.1 ≤ b.1

def extraText (e : LogEntry) : String :=
  " ".intercalate (e.extraFields.map fun f => f.1 ++ "=" ++ f.2)

/-- The fields of the written record: the event's name, each known field with the last text given for it,
and the rest as one text if it is not empty. -/
def record (e : LogEntry) : Assoc String :=
  let known := Assoc.ofList (e.fields.filter fun f => isKnown f.1)
  let extra := if e.extraText.isEmpty then [] else [("extra", e.extraText)]
  ("event", e.event.name) :: known ++ extra

end LogEntry

end DocSchema
