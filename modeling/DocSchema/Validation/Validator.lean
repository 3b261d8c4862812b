import DocSchema.Coercion
import DocSchema.Event
import DocSchema.Schema.Compiler
import DocSchema.Validation.Mismatch

/-!
# Validation

A value is checked against a field type and pruned to what the type allows. A mismatch at an optional place
drops the entry and leaves a warning; a mismatch at a required place, or a required field that is absent,
refuses the whole value. Accepted numbers go through the coercion of the store. Every dropped entry and
every refusal is noted as an event when it is found.

Section 4.4 of the specification: `validate` and `validate_record` over `check`, `check_object` and
`check_list`; `drop_entry` and `join` are its helpers.
-/

namespace DocSchema

/-- The pruned value, absent if the value as a whole was dropped, and what was dropped. -/
structure Validation where
  value : Option Json
  warnings : List Mismatch
deriving DecidableEq, Repr

namespace Validation

def accepted (v : Validation) : Bool :=
  v.value.isSome

/-- Nothing to accept and nothing to report, as for a field that is absent. -/
def empty : Validation :=
  ⟨none, []⟩

end Validation

abbrev Checked := Traced LogEntry ValidationError

namespace Validator

/-- Where the whole record is meant, field texts start with the first member. -/
def rootField : String := "$root"

/-- The text of a member below the field `parent`. -/
def join (parent key : String) : String :=
  if parent = "" ∨ parent = rootField then key else s!"{parent}.{key}"

/-- Drop an entry. -/
def drop (m : Mismatch) : Checked Validation := do
  Traced.note ⟨.fieldDropped, [("actual", m.actual), ("expected", m.expected), ("field", m.field)]⟩
  return ⟨none, [m]⟩

/-- Drop a value of the wrong type, or refuse it if it is required. -/
def mismatch (required : Bool) (m : Mismatch) : Checked Validation :=
  if required then do
    Traced.note ⟨.requiredFieldInvalid, [("actual", m.actual), ("field", m.field)]⟩
    Traced.fail (.invalid m)
  else drop m

/-- Refuse an object that lacks a required field; the first declared one is named. -/
def requirePresent (field : String) (members : List (String × Json)) :
    List FieldDecl → Checked Unit
  | [] => pure ()
  | f :: rest =>
    if f.required && !Assoc.contains f.name members then do
      let m := Mismatch.missing (join field f.name)
      Traced.note ⟨.requiredFieldInvalid, [("field", m.field)]⟩
      Traced.fail (.missing m)
    else requirePresent field members rest

mutual

/-- Check a value at the place `field`. -/
def check (coercion : Coercion) (type : FieldType) (required : Bool) (field : String) (v : Json) :
    Checked Validation :=
  match type, v with
  | .any, v => pure ⟨some (v.coerce coercion), []⟩
  | .string, .str s => pure ⟨some (.str s), []⟩
  | .bool, .bool b => pure ⟨some (.bool b), []⟩
  | .int, .num (.int i) => pure ⟨some (coercion (.int i)), []⟩
  | .float, .num n => pure ⟨some (coercion n), []⟩
  | .map, .obj members => pure ⟨some (.obj (Json.coerceMembers coercion members)), []⟩
  | .list none, .arr items => pure ⟨some (.arr (Json.coerceItems coercion items)), []⟩
  | .list (some element), .arr items => do
    let (kept, warnings) ← checkItems coercion element field 0 items
    return ⟨some (.arr kept), warnings⟩
  | .object model, .obj members => do
    let (kept, warnings) ← checkMembers coercion model field members
    requirePresent field members model.fields
    return ⟨some (.obj kept), warnings⟩
  | .dict keyType valueType, .obj members => do
    let (kept, warnings) ← checkEntries coercion keyType valueType field members
    return ⟨some (.obj kept), warnings⟩
  | type, v => mismatch required (.ofType field type.name v.typeName)

/-- Check the items of a list from number `index` on. -/
def checkItems (coercion : Coercion) (element : FieldType) (field : String) (index : Nat) :
    List Json → Checked (List Json × List Mismatch)
  | [] => pure ([], [])
  | v :: rest => do
    let item ← check coercion element false s!"{field}[{index}]" v
    let (kept, warnings) ← checkItems coercion element field (index + 1) rest
    return (item.value.toList ++ kept, item.warnings ++ warnings)

/-- Check the members of an object against the declarations of its model. -/
def checkMembers (coercion : Coercion) (model : ObjectSchema) (field : String) :
    List (String × Json) → Checked (List (String × Json) × List Mismatch)
  | [] => pure ([], [])
  | (key, v) :: rest => do
    let member ←
      match model.find? key with
      | some f => check coercion (f.type.within model) f.required (join field key) v
      | none => drop (.unknown (join field key))
    let (kept, warnings) ← checkMembers coercion model field rest
    return ((member.value.map fun w => (key, w)).toList ++ kept, member.warnings ++ warnings)

/-- Check the entries of a keyed collection. -/
def checkEntries (coercion : Coercion) (keyType : KeyType) (valueType : FieldType) (field : String) :
    List (String × Json) → Checked (List (String × Json) × List Mismatch)
  | [] => pure ([], [])
  | (key, v) :: rest => do
    let entry ←
      if keyType.accepts key then check coercion valueType false (join field key) v
      else drop (.ofKey (join field key) keyType.name key)
    let (kept, warnings) ← checkEntries coercion keyType valueType field rest
    return ((entry.value.map fun w => (key, w)).toList ++ kept, entry.warnings ++ warnings)

end

end Validator

namespace FieldDescriptor

/-- How the place of the descriptor is named in reports. -/
def fieldText (d : FieldDescriptor) : String :=
  if d.pathText.isEmpty then Validator.rootField else d.pathText

/-- Check a value for the place that the descriptor describes. -/
def validate (d : FieldDescriptor) (coercion : Coercion) (v : Json) : Checked Validation := do
  let result ← Validator.check coercion d.type d.required d.fieldText v
  if result.accepted then return result
  else do
    Traced.note ⟨.valueRejected, [("field", d.fieldText), ("table", d.table)]⟩
    return result

end FieldDescriptor

namespace CompiledSchema

def validateRecord (c : CompiledSchema) (coercion : Coercion) (record : Json) : Checked Validation :=
  c.record.validate coercion record

end CompiledSchema

end DocSchema
