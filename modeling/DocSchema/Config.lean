import DocSchema.Coercion
import DocSchema.Json.Form
import DocSchema.Path.Basic
import DocSchema.Event
import DocSchema.Traced
import DocSchema.Word

/-!
# Engine configuration

Every setting has a default, so the empty object is a configuration. A configuration is checked after it was
read, not while it is read.

Section 10.3 of the specification: `EngineConfig` with `load`, `validate` and `coercion`, and `ConfigError`.
-/

namespace DocSchema

structure EngineConfig where
  /-- The number of levels of an indexed collection that does not declare its own. -/
  maxNestedDepth : Nat := Path.maxDepth
  /-- A path that is too deep is an error and not skipped. -/
  strictDepth : Bool := false
  /-- Decimal places kept of floats; all of them if there is no scale. -/
  numericScale : Option Nat := none
deriving DecidableEq, Repr

inductive ConfigError where
  | unreadable
  | invalidJson
  | nestedDepth (value : Nat)
  | scale (value : Nat)
deriving DecidableEq, Repr

namespace EngineConfig

def maxScale : Nat := 28

def validate (c : EngineConfig) : Except ConfigError Unit :=
  if c.maxNestedDepth = 0 ∨ Path.maxDepth < c.maxNestedDepth then
    .error (.nestedDepth c.maxNestedDepth)
  else
    match c.numericScale with
    | some scale => if maxScale < scale then .error (.scale scale) else .ok ()
    | none => .ok ()

def coercion (c : EngineConfig) : Coercion :=
  .ofScale c.numericScale

def toJson (c : EngineConfig) : Json :=
  .obj [("max_nested_depth", .num (.int c.maxNestedDepth)), ("strict_depth", .bool c.strictDepth),
    ("numeric_scale", (c.numericScale.map fun n => Json.num (.int n)).getD .null)]

def ofTree? (t : Json.Tree) : Option EngineConfig := do
  let parts ← t.parts? ["max_nested_depth", "strict_depth", "numeric_scale"]
  let maxNestedDepth ← parts.get (Json.Tree.nat? Word.unsignedBound) "max_nested_depth" Path.maxDepth
  let strictDepth ← parts.get Json.Tree.bool? "strict_depth" false
  let numericScale ← parts.optional (Json.Tree.nat? Word.shortBound) "numeric_scale"
  return ⟨maxNestedDepth, strictDepth, numericScale⟩

/-- Read the file at `location`, whose bytes are given if there is such a file. -/
def load (location : String) (file : Option ByteArray) : Traced LogEntry ConfigError EngineConfig := do
  let some text := file.bind String.fromUTF8? | Traced.fail .unreadable
  let some config := (Json.Tree.ofText? (some Json.nestingLimit) text).bind ofTree?
    | Traced.fail .invalidJson
  Traced.ofExcept config.validate
  Traced.note ⟨.configLoaded,
    [("path", location), ("max_nested_depth", toString config.maxNestedDepth)]⟩
  return config

end EngineConfig

namespace ConfigError

def code : ConfigError → String
  | .unreadable => "STRUCTPATH_CONFIG_READ_FAILED"
  | .invalidJson => "STRUCTPATH_CONFIG_INVALID_JSON"
  | .nestedDepth _ | .scale _ => "STRUCTPATH_CONFIG_INVALID"

def message : ConfigError → String
  | .unreadable => "Failed to read config"
  | .invalidJson => "Invalid config JSON"
  | .nestedDepth value =>
    s!"Invalid configuration: max_nested_depth must be between 1 and {Path.maxDepth}, got {value}"
  | .scale value =>
    s!"Invalid configuration: numeric_scale must be at most {EngineConfig.maxScale}, got {value}"

end ConfigError

end DocSchema
