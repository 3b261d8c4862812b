import DocSchema.Json.Basic

/-!
# Mismatches

What a validator reports: a mismatch is a warning about an entry that was dropped, or the reason why a whole
value was refused.

Section 7 of the specification: `ValidationDetails` and `ValidationError`.
-/

namespace DocSchema

inductive MismatchKind where
  | typeMismatch
  | keyTypeMismatch
  | unknownField
  | missingField
deriving DecidableEq, Repr

namespace MismatchKind

def name : MismatchKind → String
  | .typeMismatch => "TypeMismatch"
  | .keyTypeMismatch => "KeyTypeMismatch"
  | .unknownField => "UnknownField"
  | .missingField => "MissingField"

end MismatchKind

structure Mismatch where
  field : String
  expected : String
  actual : String
  kind : MismatchKind
deriving DecidableEq, Repr

namespace Mismatch

def ofType (field expected actual : String) : Mismatch :=
  ⟨field, expected, actual, .typeMismatch⟩

def ofKey (field keyType key : String) : Mismatch :=
  ⟨field, s!"{keyType} key", s!"key '{key}'", .keyTypeMismatch⟩

def unknown (field : String) : Mismatch :=
  ⟨field, "declared field", "undeclared field present", .unknownField⟩

def missing (field : String) : Mismatch :=
  ⟨field, "field to be present", "missing", .missingField⟩

def text (m : Mismatch) : String :=
  s!"field '{m.field}': expected {m.expected}, got {m.actual}"

end Mismatch

/-- A required field is of the wrong type or absent, so the whole value is refused. -/
inductive ValidationError where
  | invalid (details : Mismatch)
  | missing (details : Mismatch)
deriving DecidableEq, Repr

namespace ValidationError

def details : ValidationError → Mismatch
  | .invalid details => details
  | .missing details => details

def code : ValidationError → String
  | .invalid _ => "STRUCTPATH_REQUIRED_FIELD_INVALID"
  | .missing _ => "STRUCTPATH_REQUIRED_FIELD_MISSING"

def message : ValidationError → String
  | .invalid details => s!"Required field invalid: {details.text}"
  | .missing details => s!"Required field missing: {details.text}"

end ValidationError

namespace Json

/-- The name of a value's type in messages. -/
def typeName : Json → String
  | .null => "null"
  | .bool _ => "bool"
  | .num (.int _) => "int"
  | .num (.float _) => "float"
  | .str _ => "string"
  | .arr _ => "list"
  | .obj _ => "object"

end Json

end DocSchema
