import DocSchema.Schema.Walk

/-!
# The places that a schema declares

Rules for the places of a schema, without the order in which a walk visits them and without the depth at which
it turns back. A model is met at a path, either outside of every unrolled collection or within a level of one,
and each meeting declares places: one for each field, and those of the items of the keyed collections.
-/

namespace DocSchema

namespace Path

/-- The path of an item of a collection, keyed by the variable `keyName`. -/
def item (collection : Path) (keyName : String) (type : FieldType) : Path :=
  collection.child (.placeholder keyName type.storageType)

/-- The path of level `n` of an indexed collection: the item of each level holds the collection again, by the
same `step`. -/
def level (collection : Path) (keyName : String) (type : FieldType) (step : PathStep) : Nat → Path
  | 0 => collection
  | n + 1 => ((collection.level keyName type step n).item (KeyName.level keyName n) type).child step

@[simp] theorem depth_item (collection : Path) (keyName : String) (type : FieldType) :
    (collection.item keyName type).depth = collection.depth + 1 := by
  simp [item]

end Path

namespace Field

/-- The variable of a collection: declared, or made from the name of the field. -/
def keyVariable (f : FieldDecl) : String :=
  f.keyName.getD (KeyName.ofField f.name)

/-- The declared type, a self reference read as the model that declares the field. -/
def typeIn (owner : ObjectSchema) (f : FieldDecl) : FieldType :=
  f.type.within owner

def pathIn (owner : ObjectSchema) (parent : Path) (f : FieldDecl) : Path :=
  parent.child (f.step (f.typeIn owner))

/-- The place of a field of a model that is met at `parent`. -/
def place (table : String) (owner : ObjectSchema) (parent : Path) (f : FieldDecl) : FieldDescriptor where
  name := f.name
  type := f.typeIn owner
  required := f.required
  keyName := (f.typeIn owner).itemType?.map fun _ => f.keyVariable
  itemType := (f.typeIn owner).itemType?
  path := f.pathIn owner parent
  table := table

/-- The path of level `n` of the collection that the field declares. -/
def levelIn (owner : ObjectSchema) (parent : Path) (f : FieldDecl) (item : FieldType) (n : Nat) : Path :=
  (f.pathIn owner parent).level f.keyVariable item (f.step (f.typeIn owner)) n

@[simp] theorem depth_pathIn (owner : ObjectSchema) (parent : Path) (f : FieldDecl) :
    (f.pathIn owner parent).depth = parent.depth + 1 := by
  simp [pathIn]

end Field

theorem Field.isCollectionItem_place (table : String) (owner : ObjectSchema) (parent : Path) (f : FieldDecl) :
    (f.place table owner parent).isCollectionItem = false := by
  rw [FieldDescriptor.isCollectionItem, place, pathIn, Path.last?_child]
  rfl

theorem FieldDescriptor.isCollectionItem_item (table keyName : String) (type : FieldType) (collection : Path) :
    (item table keyName type collection).isCollectionItem = true := by
  rw [isCollectionItem, item, Path.last?_child]
  rfl

/-- Whether a model is met outside of every unrolled collection or within a level of one. -/
inductive Region where
  | outside
  | unrolled
deriving DecidableEq, Repr

/-- The models that are met below `base`, and where. Indexed collections have their own number of levels, or
else `levels`. -/
inductive Visited (levels : Nat) (schema : ObjectSchema) (base : Path) : Region → ObjectSchema → Path → Prop
  | schema : Visited levels schema base .outside schema base
  | object {region : Region} {owner model : ObjectSchema} {parent : Path} {f : FieldDecl}
      (visited : Visited levels schema base region owner parent) (declared : f ∈ owner.fields)
      (type : f.typeIn owner = .object model) :
      Visited levels schema base region model (f.pathIn owner parent)
  | item {region : Region} {owner model : ObjectSchema} {parent : Path} {f : FieldDecl} {keyType : KeyType}
      (visited : Visited levels schema base region owner parent) (declared : f ∈ owner.fields)
      (type : f.typeIn owner = .dict keyType (.object model))
      (plain : KeyName.isIndexed f.keyVariable = false) :
      Visited levels schema base region model ((f.pathIn owner parent).item f.keyVariable (.object model))
  | level {owner model : ObjectSchema} {parent : Path} {f : FieldDecl} {keyType : KeyType} {n : Nat}
      (visited : Visited levels schema base .outside owner parent) (declared : f ∈ owner.fields)
      (type : f.typeIn owner = .dict keyType (.object model))
      (indexed : KeyName.isIndexed f.keyVariable = true) (bound : n < f.maxNestedDepth.getD levels) :
      Visited levels schema base .unrolled model
        ((f.levelIn owner parent (.object model) n).item (KeyName.level f.keyVariable n) (.object model))

/-- The places that the models met below `base` declare: their fields, the items of their collections, and
outside of every unrolled collection the items of all levels of an indexed one. -/
inductive IsPlace (table : String) (levels : Nat) (schema : ObjectSchema) (base : Path) :
    FieldDescriptor → Prop
  | field {region : Region} {owner : ObjectSchema} {parent : Path} {f : FieldDecl}
      (visited : Visited levels schema base region owner parent) (declared : f ∈ owner.fields) :
      IsPlace table levels schema base (f.place table owner parent)
  | item {region : Region} {owner : ObjectSchema} {parent : Path} {f : FieldDecl} {keyType : KeyType}
      {item : FieldType}
      (visited : Visited levels schema base region owner parent) (declared : f ∈ owner.fields)
      (type : f.typeIn owner = .dict keyType item) (plain : KeyName.isIndexed f.keyVariable = false) :
      IsPlace table levels schema base (.item table f.keyVariable item (f.pathIn owner parent))
  | level {owner : ObjectSchema} {parent : Path} {f : FieldDecl} {keyType : KeyType} {item : FieldType}
      {n : Nat}
      (visited : Visited levels schema base .outside owner parent) (declared : f ∈ owner.fields)
      (type : f.typeIn owner = .dict keyType item) (indexed : KeyName.isIndexed f.keyVariable = true)
      (bound : n < f.maxNestedDepth.getD levels) :
      IsPlace table levels schema base
        (.item table (KeyName.level f.keyVariable n) item (f.levelIn owner parent item n))

/-- No place is at the root. -/
theorem IsPlace.steps_ne_nil {table : String} {levels : Nat} {schema : ObjectSchema} {base : Path}
    {d : FieldDescriptor} (place : IsPlace table levels schema base d) : d.path.steps ≠ [] := by
  cases place <;> exact List.append_ne_nil_of_right_ne_nil _ (List.cons_ne_nil _ _)

end DocSchema
