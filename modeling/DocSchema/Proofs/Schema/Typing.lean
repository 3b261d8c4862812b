import DocSchema.Proofs.Schema.TopLevel

/-!
# Types along paths

Following the steps of a path through a type leads from objects to their members and from keyed collections to
their items. In a compiled schema the type that a place declares is the one at the end of its path.
-/

namespace DocSchema

namespace FieldType

/-- The type below a step: the first declaration of a name counts in an object, and a collection has one type
for all of its items. -/
def stepType? (t : FieldType) (s : PathStep) : Option FieldType :=
  match t, s.key with
  | .object model, .literal name => (model.find? name).map fun f => f.typeIn model
  | .dict _ valueType, .placeholder _ => some valueType
  | _, _ => none

/-- The type at the end of the steps. -/
def typeAt? (t : FieldType) : List PathStep → Option FieldType
  | [] => some t
  | s :: rest => (t.stepType? s).bind fun u => u.typeAt? rest

theorem typeAt?_append (t : FieldType) (first rest : List PathStep) :
    t.typeAt? (first ++ rest) = (t.typeAt? first).bind fun u => u.typeAt? rest := by
  induction first generalizing t with
  | nil => rfl
  | cons s later ih =>
    rw [List.cons_append, typeAt?, typeAt?, Option.bind_assoc]
    exact congrArg _ (funext ih)

/-- The type of a path with one more step. -/
theorem typeAt?_child {t u : FieldType} {p : Path} (above : t.typeAt? p.steps = some u) (s : PathStep) :
    t.typeAt? (p.child s).steps = u.stepType? s := by
  rw [Path.child, typeAt?_append, above, Option.bind_some, typeAt?]
  exact Option.bind_fun_some _

theorem isContainer_of_stepType? {t u : FieldType} {s : PathStep} (step : t.stepType? s = some u) :
    t.isContainer = true := by
  unfold stepType? at step
  split at step
  · rfl
  · rfl
  · cases step

theorem Holds.trans {t : FieldType} {owner model : ObjectSchema} (outer : t.Holds owner)
    (inner : (FieldType.object owner).Holds model) : t.Holds model := by
  induction outer with
  | here => exact inner
  | field declared _ ih => exact .field declared (ih inner)
  | element _ ih => exact .element (ih inner)
  | value _ ih => exact .value (ih inner)

end FieldType

theorem Path.text_child_congr {p : Path} {r s : PathStep} (same : r.key = s.key) :
    (p.child r).text = (p.child s).text := by
  simp [Path.text, Path.child, same]

/-- Every model that is met belongs to the schema. -/
theorem Visited.holds {levels : Nat} {schema owner : ObjectSchema} {base parent : Path} {region : Region}
    (visited : Visited levels schema base region owner parent) : (FieldType.object schema).Holds owner := by
  induction visited with
  | schema => exact .here schema
  | @object _ owner model _ f _ declared type ih =>
    have inside : (f.typeIn owner).Holds model := type ▸ FieldType.Holds.here model
    exact ih.trans (.of_within declared inside)
  | @item _ owner model _ f _ _ declared type _ ih =>
    have inside : (f.typeIn owner).Holds model := type ▸ FieldType.Holds.value (.here model)
    exact ih.trans (.of_within declared inside)
  | @level owner model _ f _ _ _ declared type _ _ ih =>
    have inside : (f.typeIn owner).Holds model := type ▸ FieldType.Holds.value (.here model)
    exact ih.trans (.of_within declared inside)

/-- Every model in the type of a place belongs to the schema. -/
theorem IsPlace.holds {table : String} {levels : Nat} {schema model : ObjectSchema} {base : Path}
    {d : FieldDescriptor} (place : IsPlace table levels schema base d) (inside : d.type.Holds model) :
    (FieldType.object schema).Holds model := by
  cases place with
  | field visited declared => exact visited.holds.trans (.of_within declared inside)
  | @item _ owner _ f _ item visited declared type _ =>
    have within : (f.typeIn owner).Holds model := type ▸ FieldType.Holds.value inside
    exact visited.holds.trans (.of_within declared within)
  | @level owner _ f _ item _ visited declared type _ _ =>
    have within : (f.typeIn owner).Holds model := type ▸ FieldType.Holds.value inside
    exact visited.holds.trans (.of_within declared within)

namespace ObjectSchema

/-- What holds of every declaration in the schema, at any depth. -/
def Throughout (schema : ObjectSchema) (P : FieldDecl → Prop) : Prop :=
  ∀ model, (FieldType.object schema).Holds model → ∀ f ∈ model.fields, P f

instance decidableThroughout (schema : ObjectSchema) (P : FieldDecl → Prop) [DecidablePred P] :
    Decidable (Throughout schema P) :=
  inferInstanceAs (Decidable (∀ model, (FieldType.object schema).Holds model → ∀ f ∈ model.fields, P f))

/-- Only collections of self references are indexed. -/
def IndexesSelfRefs (schema : ObjectSchema) : Prop :=
  Throughout schema fun f => ∀ keyType valueType, f.type = .dict keyType valueType →
    KeyName.isIndexed f.keyVariable = true → valueType = .selfRef

theorem indexesSelfRefs_iff_tags {schema : ObjectSchema} :
    IndexesSelfRefs schema ↔ Throughout schema fun f =>
      KeyName.isIndexed f.keyVariable = true → ∀ item ∈ f.type.itemType?, item.tag = .selfRef := by
  refine forall₄_congr fun model _ f _ => ⟨fun only indexed item inside => ?_, fun only keyType item type indexed => ?_⟩
  · cases type : f.type with
    | dict keyType value =>
      rw [type] at inside
      cases inside
      rw [only keyType item type indexed]
      rfl
    | _ =>
      rw [type] at inside
      cases inside
  · have tag := only indexed item (by rw [type]; rfl)
    cases item <;> first | rfl | cases tag

instance decidableIndexesSelfRefs (schema : ObjectSchema) : Decidable (IndexesSelfRefs schema) :=
  decidable_of_iff _ indexesSelfRefs_iff_tags.symm

/-- In particular there may be no indexed collections at all. -/
theorem indexesSelfRefs_of_plain {schema : ObjectSchema}
    (plain : Throughout schema fun f => KeyName.isIndexed f.keyVariable = false) : IndexesSelfRefs schema := by
  intro model held f declared keyType valueType _ indexed
  rw [plain model held f declared] at indexed
  cases indexed

end ObjectSchema

section Steps

variable {levels : Nat} {schema : ObjectSchema} {P : PathStep → Prop}

theorem Path.forall_steps_child {p : Path} {step : PathStep} (above : ∀ s ∈ p.steps, P s) (here : P step) :
    ∀ s ∈ (p.child step).steps, P s :=
  List.forall_mem_append.2 ⟨above, List.forall_mem_singleton.2 here⟩

variable (placeholders : ∀ name type, P (.placeholder name type))
  (fields : ObjectSchema.Throughout schema fun f => ∀ type, P (f.step type))
include placeholders fields

/-- The levels of a collection add items and the collection's own step. -/
theorem Field.forall_steps_levelIn {owner : ObjectSchema} {parent : Path} {f : FieldDecl} {item : FieldType}
    (held : (FieldType.object schema).Holds owner) (declared : f ∈ owner.fields)
    (above : ∀ s ∈ parent.steps, P s) (n : Nat) : ∀ s ∈ (f.levelIn owner parent item n).steps, P s := by
  have own : P (f.step (f.typeIn owner)) := fields owner held f declared _
  induction n with
  | zero => exact Path.forall_steps_child above own
  | succ n ih => exact Path.forall_steps_child (Path.forall_steps_child ih (placeholders _ _)) own

theorem Visited.forall_steps {base : Path} (start : ∀ s ∈ base.steps, P s) {region : Region}
    {owner : ObjectSchema} {parent : Path} (visited : Visited levels schema base region owner parent) :
    ∀ s ∈ parent.steps, P s := by
  induction visited with
  | schema => exact start
  | object visited declared _ ih =>
    exact Path.forall_steps_child ih (fields _ visited.holds _ declared _)
  | item visited declared _ _ ih =>
    refine Path.forall_steps_child (Path.forall_steps_child ih ?_) (placeholders _ _)
    exact fields _ visited.holds _ declared _
  | level visited declared _ _ _ ih =>
    refine Path.forall_steps_child ?_ (placeholders _ _)
    exact Field.forall_steps_levelIn placeholders fields visited.holds declared ih _

/-- Below a base, the path of a place is made of steps to declared fields and of steps to items. -/
theorem IsPlace.forall_steps_below {base : Path} (start : ∀ s ∈ base.steps, P s) {table : String}
    {d : FieldDescriptor} (place : IsPlace table levels schema base d) : ∀ s ∈ d.path.steps, P s := by
  cases place with
  | field visited declared =>
    have above := visited.forall_steps placeholders fields start
    exact Path.forall_steps_child above (fields _ visited.holds _ declared _)
  | item visited declared _ _ =>
    have above := visited.forall_steps placeholders fields start
    refine Path.forall_steps_child (Path.forall_steps_child above ?_) (placeholders _ _)
    exact fields _ visited.holds _ declared _
  | level visited declared _ _ _ =>
    have above := visited.forall_steps placeholders fields start
    refine Path.forall_steps_child ?_ (placeholders _ _)
    exact Field.forall_steps_levelIn placeholders fields visited.holds declared above _

/-- At the root there are no other steps. -/
theorem IsPlace.forall_steps {table : String} {d : FieldDescriptor}
    (place : IsPlace table levels schema Path.root d) : ∀ s ∈ d.path.steps, P s :=
  place.forall_steps_below placeholders fields (List.forall_mem_nil _)

end Steps

namespace Compiler

variable {c : Compiler} {table : String} {schema : ObjectSchema} {compiled : CompiledSchema}

/-- Two declarations of one name have one place, where the model that declares them is met. -/
theorem place_eq_of_find? (success : (c.compileAt table schema Path.root).result = .ok compiled)
    {region : Region} {owner : ObjectSchema} {parent : Path}
    (visited : Visited c.maxNestedDepth schema Path.root region owner parent)
    (room : parent.depth < Path.maxDepth) {f g : FieldDecl} (declared : f ∈ owner.fields)
    (found : owner.find? f.name = some g) : g.place table owner parent = f.place table owner parent := by
  have first : g ∈ owner.fields := Model.mem_of_find? found
  have passed := List.find?_some found
  have named : g.name = f.name := of_decide_eq_true passed
  refine place_eq_of_pathText success (.field visited first) (.field visited declared) ?_ ?_ ?_
  · exact Field.depth_pathIn owner parent g ▸ room
  · exact Field.depth_pathIn owner parent f ▸ room
  · exact Path.text_child_congr (congrArg StepKey.literal named)

/-- In particular they have one type. -/
theorem typeIn_eq_of_find? (success : (c.compileAt table schema Path.root).result = .ok compiled)
    {region : Region} {owner : ObjectSchema} {parent : Path}
    (visited : Visited c.maxNestedDepth schema Path.root region owner parent)
    (room : parent.depth < Path.maxDepth) {f g : FieldDecl} (declared : f ∈ owner.fields)
    (found : owner.find? f.name = some g) : g.typeIn owner = f.typeIn owner :=
  congrArg FieldDescriptor.type (place_eq_of_find? success visited room declared found)

/-- A field of a model that is met has the declared type at the end of its path, if the model has. -/
theorem typeAt?_pathIn (success : (c.compileAt table schema Path.root).result = .ok compiled)
    {region : Region} {owner : ObjectSchema} {parent : Path} {f : FieldDecl}
    (visited : Visited c.maxNestedDepth schema Path.root region owner parent) (declared : f ∈ owner.fields)
    (room : parent.depth < Path.maxDepth) {t : FieldType} {p : Path}
    (above : t.typeAt? p.steps = some (.object owner)) :
    t.typeAt? (f.pathIn owner p).steps = some (f.typeIn owner) := by
  obtain ⟨g, found⟩ := Model.exists_find?_eq_some declared
  rw [Field.pathIn, FieldType.typeAt?_child above]
  change (owner.find? f.name).map _ = _
  rw [found, Option.map_some, typeIn_eq_of_find? success visited room declared found]

/-- On every level of an indexed collection of self references the type is that of the collection. -/
theorem typeAt?_levelIn (success : (c.compileAt table schema Path.root).result = .ok compiled)
    {region : Region} {owner : ObjectSchema} {parent : Path} {f : FieldDecl} {keyType : KeyType}
    (visited : Visited c.maxNestedDepth schema Path.root region owner parent) (declared : f ∈ owner.fields)
    (room : parent.depth < Path.maxDepth) (type : f.typeIn owner = .dict keyType (.object owner))
    (above : (FieldType.object schema).typeAt? parent.steps = some (.object owner)) (n : Nat) :
    (FieldType.object schema).typeAt? (f.levelIn owner parent (.object owner) n).steps =
      some (.dict keyType (.object owner)) := by
  induction n with
  | zero => exact (typeAt?_pathIn success visited declared room above).trans (congrArg some type)
  | succ n ih =>
    have item := FieldType.typeAt?_child ih
      (.placeholder (KeyName.level f.keyVariable n) (FieldType.object owner).storageType)
    exact (typeAt?_pathIn success visited declared room item).trans (congrArg some type)

/-- Where only collections of self references are indexed, an indexed collection holds its owner. -/
theorem item_eq_owner {region : Region} {owner : ObjectSchema} {parent : Path} {f : FieldDecl}
    {keyType : KeyType} {item : FieldType} (regular : ObjectSchema.IndexesSelfRefs schema)
    (visited : Visited c.maxNestedDepth schema Path.root region owner parent) (declared : f ∈ owner.fields)
    (type : f.typeIn owner = .dict keyType item) (indexed : KeyName.isIndexed f.keyVariable = true) :
    item = .object owner := by
  rcases FieldType.within_eq_dict type with plain | ⟨-, rfl⟩
  · cases regular owner visited.holds f declared keyType item plain indexed
    rw [Field.typeIn, plain, FieldType.within] at type
    cases type
  · rfl

variable (success : (c.compileAt table schema Path.root).result = .ok compiled)
  (regular : ObjectSchema.IndexesSelfRefs schema)
include success regular

/-- A model is met where its type is. -/
theorem typeAt?_of_visited {region : Region} {owner : ObjectSchema} {parent : Path}
    (visited : Visited c.maxNestedDepth schema Path.root region owner parent)
    (room : parent.depth ≤ Path.maxDepth) :
    (FieldType.object schema).typeAt? parent.steps = some (.object owner) := by
  induction visited with
  | schema => rfl
  | object visited declared type ih =>
    rw [Field.depth_pathIn] at room
    rw [typeAt?_pathIn success visited declared room (ih (Nat.le_of_lt room)), type]
  | item visited declared type _ ih =>
    rw [Path.depth_item, Field.depth_pathIn] at room
    have parentRoom := Nat.lt_of_succ_lt room
    have collection := typeAt?_pathIn success visited declared parentRoom (ih (Nat.le_of_lt parentRoom))
    exact FieldType.typeAt?_child (collection.trans (congrArg some type)) _
  | @level owner _ parent f _ n visited declared type indexed _ ih =>
    rw [Path.depth_item] at room
    have parentRoom : parent.depth < Path.maxDepth :=
      Nat.lt_of_le_of_lt (Nat.le_of_lt (Walk.depth_lt_levelIn owner parent f _ n)) room
    cases item_eq_owner regular visited declared type indexed
    have collection := typeAt?_levelIn success visited declared parentRoom type (ih (Nat.le_of_lt parentRoom)) n
    exact FieldType.typeAt?_child collection _

/-- A place that is not too deep has its declared type at the end of its path. -/
theorem typeAt?_of_isPlace {d : FieldDescriptor} (place : IsPlace table c.maxNestedDepth schema Path.root d)
    (room : d.path.depth ≤ Path.maxDepth) : (FieldType.object schema).typeAt? d.path.steps = some d.type := by
  cases place with
  | @field _ owner parent f visited declared =>
    have depth : (f.pathIn owner parent).depth ≤ Path.maxDepth := room
    rw [Field.depth_pathIn] at depth
    have parentRoom : parent.depth < Path.maxDepth := depth
    have above := typeAt?_of_visited success regular visited (Nat.le_of_lt parentRoom)
    exact typeAt?_pathIn success visited declared parentRoom above
  | @item _ owner parent f _ _ visited declared type _ =>
    have depth : ((f.pathIn owner parent).child _).depth ≤ Path.maxDepth := room
    rw [Path.depth_child, Field.depth_pathIn] at depth
    have parentRoom := Nat.lt_of_succ_lt depth
    have above := typeAt?_of_visited success regular visited (Nat.le_of_lt parentRoom)
    have collection := typeAt?_pathIn success visited declared parentRoom above
    exact FieldType.typeAt?_child (collection.trans (congrArg some type)) _
  | @level owner parent f _ item n visited declared type indexed _ =>
    have depth : ((f.levelIn owner parent item n).child _).depth ≤ Path.maxDepth := room
    rw [Path.depth_child] at depth
    have parentRoom : parent.depth < Path.maxDepth :=
      Nat.lt_of_le_of_lt (Nat.le_of_lt (Walk.depth_lt_levelIn owner parent f _ n)) depth
    have above := typeAt?_of_visited success regular visited (Nat.le_of_lt parentRoom)
    cases item_eq_owner regular visited declared type indexed
    exact FieldType.typeAt?_child (typeAt?_levelIn success visited declared parentRoom type above n) _

end Compiler

end DocSchema
