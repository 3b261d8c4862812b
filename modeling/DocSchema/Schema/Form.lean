import DocSchema.Json.Form
import DocSchema.Schema.Basic

/-!
# JSON forms of schemas

A field type is an object with a tag and the parts of the tagged type, or an array of the tag and those
parts. In a field declaration the parts of the type stand beside the settings of the field. Inside of a type
a tag may be given by its number.
-/

namespace DocSchema

open Json (Tree)

namespace KeyType

def ofTree? (nested : Bool) (t : Tree) : Option KeyType :=
  (t.alternative? nested).bind ofName?

end KeyType

namespace TypeTag

def ofTree? (nested : Bool) : Tree → Option TypeTag
  | .str name => ofName? name
  | .num (.int (.ofNat n)) => if nested then all[n]? else none
  | _ => none

/-- The tag among the members of a tagged object. -/
def ofMembers? (nested : Bool) (members : List (String × Tree)) : Option TypeTag := do
  let t ← Tree.unique? "type" members
  ofTree? nested (← t)

end TypeTag

namespace FieldType

/-- The tagged type of the given parts. A part that is read where it is not asked for does no harm. -/
def ofParts? (tag : TypeTag) (element : Option (Option FieldType)) (model : Option ObjectSchema)
    (keyType : Option KeyType) (valueType : Option FieldType) : Option FieldType :=
  match tag with
  | .any => some .any
  | .string => some .string
  | .int => some .int
  | .float => some .float
  | .bool => some .bool
  | .list => element.map .list
  | .map => some .map
  | .object => model.map .object
  | .dict => do return .dict (← keyType) (← valueType)
  | .selfRef => some .selfRef

/-- The key type among the members of a tagged object. -/
def keyTypeOf? (members : List (String × Tree)) : Option KeyType := do
  match ← Tree.unique? "key_type" members with
  | some t => KeyType.ofTree? true t
  | none => some .string

/-- Null stands for a part that is left out. -/
def optional? {α : Type} (t : Tree) (read : Option α) : Option (Option α) :=
  match t with
  | .null => some none
  | _ => read.map some

mutual

/-- The type that a tree stands for. -/
def read? (nested : Bool) : Tree → Option FieldType
  | .obj members => do
    let tag ← TypeTag.ofMembers? nested members
    ofParts? tag (readElement? members) (readModel? members) (keyTypeOf? members) (readValue? members)
  | .arr [tag] => do
    ofParts? (← TypeTag.ofTree? nested tag) (some none) none none none
  | .arr [tag, part] => do
    match ← TypeTag.ofTree? nested tag with
    | .list => do return .list (← optional? part (read? true part))
    | .object => (readSchema? part).map .object
    | _ => none
  | .arr [tag, keyType, valueType] => do
    match ← TypeTag.ofTree? nested tag with
    | .dict => do return .dict (← KeyType.ofTree? true keyType) (← read? true valueType)
    | _ => none
  | _ => none

def readElement? : List (String × Tree) → Option (Option FieldType)
  | [] => some none
  | (name, t) :: rest =>
    if name = "element_type" then
      if Assoc.contains name rest then none else optional? t (read? true t)
    else readElement? rest

def readModel? : List (String × Tree) → Option ObjectSchema
  | [] => none
  | (name, t) :: rest =>
    if name = "model" then
      if Assoc.contains name rest then none else readSchema? t
    else readModel? rest

def readValue? : List (String × Tree) → Option FieldType
  | [] => none
  | (name, t) :: rest =>
    if name = "value_type" then
      if Assoc.contains name rest then none else read? true t
    else readValue? rest

/-- The settings of a field and the parts of its type stand side by side. -/
def readField? : Tree → Option FieldDecl
  | .obj members => do
    let settings ← Tree.parts? ["name", "required", "key_name", "default", "max_nested_depth"] (.obj members)
    let tag ← TypeTag.ofMembers? true members
    let type ← ofParts? tag (readElement? members) (readModel? members) (keyTypeOf? members)
      (readValue? members)
    let name ← settings.require Tree.str? "name"
    let required ← settings.get Tree.bool? "required" false
    let keyName ← settings.optional Tree.str? "key_name"
    let custom ← settings.optional Tree.value? "default"
    let maxNestedDepth ← settings.optional (Tree.nat? Word.unsignedBound) "max_nested_depth"
    return ⟨name, type, required, keyName, custom, maxNestedDepth⟩
  | _ => none

def readFields? : List Tree → Option (List FieldDecl)
  | [] => some []
  | t :: rest => do
    let f ← readField? t
    let fs ← readFields? rest
    return f :: fs

/-- The fields of an array of declarations. -/
def readFieldArray? : Tree → Option (List FieldDecl)
  | .arr items => readFields? items
  | _ => none

/-- The fields among the members of a schema; a schema may leave them out. -/
def readFieldsMember? : List (String × Tree) → Option (List FieldDecl)
  | [] => some []
  | (name, t) :: rest => if name = "fields" then readFieldArray? t else readFieldsMember? rest

def readSchema? : Tree → Option ObjectSchema
  | .obj members => do
    let parts ← Tree.parts? ["name", "description", "fields"] (.obj members)
    let name ← parts.require Tree.str? "name"
    let description ← parts.optional Tree.str? "description"
    let fields ← readFieldsMember? members
    return ⟨name, description, fields⟩
  | .arr [name] => do
    return ⟨← name.str?, none, []⟩
  | .arr [name, description] => do
    return ⟨← name.str?, ← optional? description description.str?, []⟩
  | .arr [name, description, fields] => do
    return ⟨← name.str?, ← optional? description description.str?, ← readFieldArray? fields⟩
  | _ => none

end

/-- The type that a tree stands for; every part of the tree has to be readable. -/
def ofTree? (t : Tree) : Option FieldType :=
  if t.readable then read? false t else none

mutual

/-- The members that tag a type. -/
def toMembers : FieldType → List (String × Json)
  | .any => [("type", .str TypeTag.any.name)]
  | .string => [("type", .str TypeTag.string.name)]
  | .int => [("type", .str TypeTag.int.name)]
  | .float => [("type", .str TypeTag.float.name)]
  | .bool => [("type", .str TypeTag.bool.name)]
  | .list none => [("type", .str TypeTag.list.name)]
  | .list (some element) =>
    [("type", .str TypeTag.list.name), ("element_type", .obj (toMembers element))]
  | .map => [("type", .str TypeTag.map.name)]
  | .object model => [("type", .str TypeTag.object.name), ("model", schemaToJson model)]
  | .dict keyType valueType =>
    [("type", .str TypeTag.dict.name), ("key_type", .str keyType.name),
      ("value_type", .obj (toMembers valueType))]
  | .selfRef => [("type", .str TypeTag.selfRef.name)]

/-- The members of a field declaration in the order in which they are written. -/
def fieldsToJson : List FieldDecl → List Json
  | [] => []
  | ⟨name, type, required, keyName, custom, maxNestedDepth⟩ :: rest =>
    .obj ([("name", .str name)] ++ toMembers type ++ [("required", .bool required)] ++
      (keyName.map fun k => ("key_name", Json.str k)).toList ++
      (custom.map fun v => ("default", v)).toList ++
      (maxNestedDepth.map fun n => ("max_nested_depth", Json.num (.int n))).toList) ::
    fieldsToJson rest

def schemaToJson : ObjectSchema → Json
  | ⟨name, description, fields⟩ =>
    .obj ([("name", .str name)] ++
      (description.map fun d => ("description", Json.str d)).toList ++
      [("fields", .arr (fieldsToJson fields))])

end

def toJson (t : FieldType) : Json :=
  .obj t.toMembers

end FieldType

namespace Field

/-- The declaration that a tree stands for; every part of the tree has to be readable. -/
def ofTree? (t : Tree) : Option FieldDecl :=
  if t.readable then FieldType.readField? t else none

def toJson (f : FieldDecl) : Json :=
  (FieldType.fieldsToJson [f]).headD .null

end Field

namespace Model

/-- Every part of the declarations of a schema is readable. -/
def fieldsReadable : Tree → Bool
  | .obj members => (Assoc.get? "fields" members).all Tree.readable
  | .arr items => items.all Tree.readable
  | _ => true

/-- The schema that a tree stands for. Members that a schema does not know may be unreadable. -/
def ofTree? (t : Tree) : Option ObjectSchema :=
  if fieldsReadable t then FieldType.readSchema? t else none

def toJson (s : ObjectSchema) : Json :=
  FieldType.schemaToJson s

end Model

end DocSchema
