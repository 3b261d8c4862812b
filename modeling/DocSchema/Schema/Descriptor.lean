import DocSchema.Path.Basic
import DocSchema.Schema.Error

/-!
# Field descriptors

A descriptor says what a document holds at one place: the declared type with self references resolved, and
the path that leads there. A declaration is checked on the way to its descriptor.

Section 3 of the specification: `FieldDescriptor`, with `root_descriptor` and `item_descriptor`. Section 4.2,
the checks of one field: `check_field_name`, `resolve_key_name` and `resolve_self_ref`.
-/

namespace DocSchema

structure FieldDescriptor where
  name : String
  type : FieldType
  required : Bool
  keyName : Option String
  itemType : Option FieldType
  path : Path
  table : String
deriving Repr

namespace FieldDescriptor

/-- The text under which the descriptor is registered. -/
def pathText (d : FieldDescriptor) : String :=
  d.path.text

/-- The descriptor addresses one item of a collection. -/
def isCollectionItem (d : FieldDescriptor) : Bool :=
  d.path.last?.any PathStep.isPlaceholder

/-- The whole record: it has the empty path and is never registered. -/
def record (table : String) (schema : ObjectSchema) : FieldDescriptor :=
  ⟨"", .object schema, true, none, none, Path.root, table⟩

/-- One item of a collection, supplied by the variable `keyName`. -/
def item (table keyName : String) (type : FieldType) (collection : Path) : FieldDescriptor :=
  ⟨keyName, type, false, none, none,
    collection.child (PathStep.placeholder keyName type.storageType), table⟩

end FieldDescriptor

namespace FieldType

/-- The type of the items of a collection. -/
def itemType? : FieldType → Option FieldType
  | .dict _ valueType => some valueType
  | _ => none

end FieldType

namespace Field

/-- The variable of a collection; a field of another type has none and must not name one. -/
def keyName? (f : FieldDecl) : Except SchemaError (Option String) :=
  match f.type, f.keyName with
  | .dict _ valueType, keyName =>
    let keyName := keyName.getD (KeyName.ofField f.name)
    match KeyName.fault? keyName with
    | some fault => .error (.invalidKeyName f.name keyName fault)
    | none =>
      match valueType, KeyName.isIndexed keyName with
      | .selfRef, false => .error (.unboundedRecursion f.name)
      | _, _ => .ok (some keyName)
  | t, some keyName => .error (.invalidKeyNameUsage f.name keyName t.tag)
  | _, none => .ok none

def checkName (owner : ObjectSchema) (f : FieldDecl) : Except SchemaError Unit :=
  match NameFault.ofName? f.name.toList with
  | some fault => .error (.invalidFieldName owner.name f.name fault)
  | none => .ok ()

def checkNestedDepth (f : FieldDecl) : Except SchemaError Unit :=
  match f.maxNestedDepth with
  | none => .ok ()
  | some depth =>
    if depth = 0 ∨ Path.maxDepth < depth then .error (.invalidMaxNestedDepth f.name depth) else .ok ()

/-- The declared type with self references resolved to the owner. -/
def resolvedType (owner : ObjectSchema) (f : FieldDecl) : Except SchemaError FieldType :=
  if f.type.misusesSelfRef then .error (.invalidSelfRef f.name) else .ok (f.type.within owner)

/-- The step from an object to the field. -/
def step (f : FieldDecl) (type : FieldType) : PathStep :=
  (PathStep.literal f.name type.storageType).withCustom f.custom

/-- Check a declaration of `owner`, found at `parent`, and describe its place. -/
def describe (table : String) (owner : ObjectSchema) (parent : Path) (f : FieldDecl) :
    Except SchemaError FieldDescriptor := do
  f.checkName owner
  f.checkNestedDepth
  let keyName ← f.keyName?
  let type ← f.resolvedType owner
  return ⟨f.name, type, f.required, keyName, type.itemType?, parent.child (f.step type), table⟩

end Field

end DocSchema
