import DocSchema.Digits
import DocSchema.Path.Step

/-!
# Schemas

A schema declares the fields of an object in order. Field types nest: lists and keyed collections hold
values of one type, an object holds a model of its own, and a self reference stands for the object that
declares the collection.

Section 3 of the specification: `KeyType` with `accepts`, `FieldType`, `FieldDecl` and `ObjectSchema`. Section
11: `self_ref` with `resolve_self_ref` (`FieldType.within`).
-/

namespace DocSchema

/-- What the keys of a collection have to look like. -/
inductive KeyType where
  | string
  | int
deriving DecidableEq, Repr

namespace KeyType

def name : KeyType → String
  | .string => "string"
  | .int => "int"

def all : List KeyType :=
  [.string, .int]

def ofName? (name : String) : Option KeyType :=
  all.find? fun t => t.name = name

/-- Every key is a string; an integer key has to fit 64 signed bits. -/
def accepts (t : KeyType) (key : String) : Bool :=
  match t with
  | .string => true
  | .int => (Digits.int64? key.toList).isSome

end KeyType

/-- A field declaration over a language `τ` of types. -/
structure Field (τ : Type) where
  name : String
  type : τ
  required : Bool
  keyName : Option String
  custom : Option Json
  maxNestedDepth : Option Nat
deriving Repr

/-- A named list of field declarations over a language `τ` of types. -/
structure Model (τ : Type) where
  name : String
  description : Option String
  fields : List (Field τ)
deriving Repr

inductive FieldType where
  | any
  | string
  | int
  | float
  | bool
  | list (element : Option FieldType)
  | map
  | object (model : Model FieldType)
  | dict (keyType : KeyType) (valueType : FieldType)
  | selfRef
deriving Repr

abbrev FieldDecl := Field FieldType

abbrev ObjectSchema := Model FieldType

/-- The constructors of field types, as they are named in messages and in schema texts. -/
inductive TypeTag where
  | any
  | string
  | int
  | float
  | bool
  | list
  | map
  | object
  | dict
  | selfRef
deriving DecidableEq, Repr

namespace TypeTag

def name : TypeTag → String
  | .any => "any"
  | .string => "string"
  | .int => "int"
  | .float => "float"
  | .bool => "bool"
  | .list => "list"
  | .map => "map"
  | .object => "object"
  | .dict => "dict"
  | .selfRef => "self_ref"

/-- The tags in the order by which they are numbered. -/
def all : List TypeTag :=
  [.any, .string, .int, .float, .bool, .list, .map, .object, .dict, .selfRef]

def ofName? (name : String) : Option TypeTag :=
  all.find? fun t => t.name = name

end TypeTag

namespace FieldType

def tag : FieldType → TypeTag
  | .any => .any
  | .string => .string
  | .int => .int
  | .float => .float
  | .bool => .bool
  | .list _ => .list
  | .map => .map
  | .object _ => .object
  | .dict _ _ => .dict
  | .selfRef => .selfRef

def name (t : FieldType) : String :=
  t.tag.name

/-- The kind of value that a store keeps for the type. -/
def storageType : FieldType → StorageType
  | .any => .any
  | .string => .string
  | .int => .int
  | .float => .float
  | .bool => .bool
  | .list _ => .list
  | .map | .object _ | .dict _ _ | .selfRef => .map

/-- The type inside `owner`: a collection of self references holds objects of the owner. -/
def within (owner : ObjectSchema) : FieldType → FieldType
  | .dict keyType .selfRef => .dict keyType (.object owner)
  | t => t

/-- A self reference outside of an object model. -/
def containsSelfRef : FieldType → Bool
  | .selfRef => true
  | .list (some element) => element.containsSelfRef
  | .dict _ valueType => valueType.containsSelfRef
  | _ => false

/-- Self references may only be the values of a collection. -/
def misusesSelfRef : FieldType → Bool
  | .dict _ .selfRef => false
  | t => t.containsSelfRef

/-- The model belongs to an object type that occurs in the type, at any depth. -/
inductive Holds : FieldType → ObjectSchema → Prop
  | here (model : ObjectSchema) : Holds (.object model) model
  | field {owner model : ObjectSchema} {f : FieldDecl} (declared : f ∈ owner.fields)
      (inside : Holds f.type model) : Holds (.object owner) model
  | element {element : FieldType} {model : ObjectSchema} (inside : Holds element model) :
      Holds (.list (some element)) model
  | value {keyType : KeyType} {valueType : FieldType} {model : ObjectSchema}
      (inside : Holds valueType model) : Holds (.dict keyType valueType) model

/-- Reading a type inside its owner brings in no other model. -/
theorem Holds.of_within {owner model : ObjectSchema} {f : FieldDecl} (declared : f ∈ owner.fields)
    (inside : Holds (f.type.within owner) model) : Holds (.object owner) model := by
  unfold within at inside
  split at inside
  · cases inside with
    | value inside => exact inside
  · exact .field declared inside

mutual

/-- The models of the object types that occur in the type, from the outside in. -/
def models : FieldType → List ObjectSchema
  | .list (some element) => element.models
  | .object model => modelsFrom model
  | .dict _ valueType => valueType.models
  | _ => []

def modelsFrom : ObjectSchema → List ObjectSchema
  | ⟨name, description, fields⟩ => ⟨name, description, fields⟩ :: modelsBelow fields

def modelsBelow : List FieldDecl → List ObjectSchema
  | [] => []
  | ⟨_, type, _, _, _, _⟩ :: rest => type.models ++ modelsBelow rest

end

theorem models_object (model : ObjectSchema) : (FieldType.object model).models = model :: modelsBelow model.fields := by
  cases model
  rfl

theorem mem_modelsBelow_iff {model : ObjectSchema} {fields : List FieldDecl} :
    model ∈ modelsBelow fields ↔ ∃ f ∈ fields, model ∈ f.type.models := by
  induction fields with
  | nil => simp [modelsBelow]
  | cons f rest ih => simp [modelsBelow, ih]

mutual

theorem holds_of_mem_models {model : ObjectSchema} : ∀ {t : FieldType}, model ∈ t.models → t.Holds model
  | .list (some _), member => .element (holds_of_mem_models member)
  | .object _, member => holds_of_mem_modelsFrom member
  | .dict _ _, member => .value (holds_of_mem_models member)

theorem holds_of_mem_modelsFrom {model : ObjectSchema} :
    ∀ {owner : ObjectSchema}, model ∈ modelsFrom owner → (FieldType.object owner).Holds model
  | ⟨_, _, _⟩, .head _ => .here _
  | ⟨_, _, _⟩, .tail _ below =>
    have ⟨_, declared, inside⟩ := holds_of_mem_modelsBelow below
    .field declared inside

theorem holds_of_mem_modelsBelow {model : ObjectSchema} :
    ∀ {fields : List FieldDecl}, model ∈ modelsBelow fields → ∃ f ∈ fields, f.type.Holds model
  | ⟨_, _, _, _, _, _⟩ :: _, member => by
    rcases List.mem_append.1 member with here | later
    · exact ⟨_, List.mem_cons_self, holds_of_mem_models here⟩
    · obtain ⟨f, declared, inside⟩ := holds_of_mem_modelsBelow later
      exact ⟨f, List.mem_cons_of_mem _ declared, inside⟩

end

/-- The listed models are those that the type holds. -/
theorem mem_models_iff {t : FieldType} {model : ObjectSchema} : model ∈ t.models ↔ t.Holds model := by
  refine ⟨holds_of_mem_models, fun held => ?_⟩
  induction held with
  | here => simp [models_object]
  | @field owner model f declared _ ih =>
    have below : model ∈ modelsBelow owner.fields := mem_modelsBelow_iff.2 ⟨f, declared, ih⟩
    simp [models_object, below]
  | element _ ih => exact ih
  | value _ ih => exact ih

/-- What is asked of every model of a type is decided on their list. -/
instance decidableForallHolds (t : FieldType) (P : ObjectSchema → Prop) [DecidablePred P] :
    Decidable (∀ model, t.Holds model → P model) :=
  decidable_of_iff (∀ model ∈ t.models, P model) (by simp only [mem_models_iff])

end FieldType

namespace Field

/-- An optional field without further settings. -/
def plain {τ : Type} (name : String) (type : τ) : Field τ :=
  ⟨name, type, false, none, none, none⟩

end Field

namespace Model

variable {τ : Type}

def find? (m : Model τ) (name : String) : Option (Field τ) :=
  m.fields.find? fun f => f.name = name

theorem mem_of_find? {m : Model τ} {name : String} {f : Field τ} (found : m.find? name = some f) :
    f ∈ m.fields :=
  List.mem_of_find?_eq_some found

/-- A declared name is found, if only at an earlier declaration. -/
theorem exists_find?_eq_some {m : Model τ} {f : Field τ} (declared : f ∈ m.fields) :
    ∃ g, m.find? f.name = some g := by
  refine Option.isSome_iff_exists.1 (List.find?_isSome.2 ⟨f, declared, ?_⟩)
  exact decide_eq_true rfl

/-- Where no name is declared twice, each declaration is the first of its name. -/
theorem find?_of_nodup {m : Model τ} (distinct : (m.fields.map Field.name).Nodup) {f : Field τ}
    (declared : f ∈ m.fields) : m.find? f.name = some f := by
  obtain ⟨_, _, fields⟩ := m
  unfold find?
  induction fields with
  | nil => cases declared
  | cons first rest ih =>
    obtain ⟨fresh, distinct⟩ := List.nodup_cons.1 distinct
    rcases List.mem_cons.1 declared with rfl | declared
    · simp
    · have other : first.name ≠ f.name := fun same => fresh (same ▸ List.mem_map_of_mem declared)
      simpa [other] using ih distinct declared

end Model

end DocSchema
