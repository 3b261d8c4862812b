import DocSchema.Proofs.Schema.Places

/-!
# Steps of a walk

What one step of a walk does: a declaration that passes its checks becomes its place, the place is noted before
its depth decides how the walk goes on, and below it lie the fields of an object, the item of a collection or
the levels of an indexed one. `Within` compares a part of a walk with the whole.
-/

namespace DocSchema

/-- The type of a field is a part of its model. -/
theorem Model.sizeOf_type_lt {model : ObjectSchema} {f : FieldDecl} (declared : f ∈ model.fields) :
    sizeOf f.type < sizeOf model := by
  have smaller := List.sizeOf_lt_of_mem declared
  obtain ⟨name, type, required, keyName, custom, maxNestedDepth⟩ := f
  obtain ⟨modelName, description, fields⟩ := model
  simp only [Model.mk.sizeOf_spec, Field.mk.sizeOf_spec] at smaller ⊢
  omega

/-- Only the item type of a collection depends on the owner, not whether there is one. -/
theorem FieldType.map_itemType?_within {α : Type} (owner : ObjectSchema) (t : FieldType) (a : α) :
    (t.within owner).itemType?.map (fun _ => a) = t.itemType?.map fun _ => a := by
  unfold FieldType.within
  split <;> rfl

theorem FieldType.within_eq_object {owner model : ObjectSchema} {t : FieldType}
    (type : t.within owner = .object model) : t = .object model := by
  unfold FieldType.within at type
  split at type
  · cases type
  · exact type

theorem FieldType.within_eq_dict {owner : ObjectSchema} {t item : FieldType} {keyType : KeyType}
    (type : t.within owner = .dict keyType item) :
    t = .dict keyType item ∨ t = .dict keyType .selfRef ∧ item = .object owner := by
  unfold FieldType.within at type
  split at type
  · cases type
    exact .inr ⟨rfl, rfl⟩
  · exact .inl type

theorem FieldType.within_dict (owner : ObjectSchema) (keyType : KeyType) (valueType : FieldType) :
    ∃ item, (FieldType.dict keyType valueType).within owner = .dict keyType item := by
  cases valueType <;> exact ⟨_, rfl⟩

namespace Field

variable {table : String} {owner : ObjectSchema} {parent : Path} {f : FieldDecl}

theorem keyName?_ok {keyName : Option String} (success : f.keyName? = .ok keyName) :
    keyName = f.type.itemType?.map fun _ => f.keyVariable := by
  unfold keyName? at success
  split at success
  · next keyType valueType declared type =>
    dsimp only at success
    split at success
    · cases success
    · split at success
      · cases success
      · cases success
        rw [type]
        rfl
  · cases success
  · next plain =>
    cases success
    cases type : f.type with
    | dict keyType valueType => exact absurd type (plain keyType valueType)
    | _ => rfl

/-- The variable of a collection leaves to path texts what they need, and self references need an indexed one. -/
theorem keyName?_dict {keyType : KeyType} {valueType : FieldType} (type : f.type = .dict keyType valueType) :
    (∃ keyName, f.keyName? = .ok keyName) ↔ KeyName.fault? f.keyVariable = none ∧
      (valueType.tag = .selfRef → KeyName.isIndexed f.keyVariable = true) := by
  unfold keyName?
  rw [type]
  dsimp only
  rw [← keyVariable]
  cases KeyName.fault? f.keyVariable with
  | some fault => simp
  | none => cases KeyName.isIndexed f.keyVariable <;> cases valueType <;> simp [FieldType.tag]

/-- A field of another type names no variable. -/
theorem keyName?_other (other : ∀ keyType valueType, f.type ≠ .dict keyType valueType) :
    (∃ keyName, f.keyName? = .ok keyName) ↔ f.keyName = none := by
  unfold keyName?
  cases f.keyName <;> cases type : f.type <;> simp_all

/-- A declaration that passes its checks is described as its place. -/
theorem describe_ok {d : FieldDescriptor} (success : f.describe table owner parent = .ok d) :
    d = f.place table owner parent ∧
      ∀ keyType, f.type = .dict keyType .selfRef → KeyName.isIndexed f.keyVariable = true := by
  unfold describe at success
  obtain ⟨_, _, success⟩ := Traced.except_bind_ok_iff.1 success
  obtain ⟨_, _, success⟩ := Traced.except_bind_ok_iff.1 success
  obtain ⟨keyName, named, success⟩ := Traced.except_bind_ok_iff.1 success
  obtain ⟨type, resolved, success⟩ := Traced.except_bind_ok_iff.1 success
  have typeEq : type = f.typeIn owner := by
    unfold resolvedType at resolved
    split at resolved
    · cases resolved
    · cases resolved
      rfl
  refine ⟨?_, fun keyType self => ((keyName?_dict self).1 ⟨keyName, named⟩).2 rfl⟩
  cases success
  rw [keyName?_ok named, typeEq, place, typeIn, FieldType.map_itemType?_within]
  rfl

/-- Whether a declaration passes its checks does not depend on where it is met. -/
theorem describe_ok_iff : f.describe table owner parent = .ok (f.place table owner parent) ↔
    NameFault.ofName? f.name.toList = none ∧ f.checkNestedDepth = .ok () ∧ (∃ keyName, f.keyName? = .ok keyName) ∧
      f.type.misusesSelfRef = false := by
  constructor
  · intro success
    unfold describe at success
    obtain ⟨_, checked, success⟩ := Traced.except_bind_ok_iff.1 success
    obtain ⟨_, bounded, success⟩ := Traced.except_bind_ok_iff.1 success
    obtain ⟨keyName, keyed, success⟩ := Traced.except_bind_ok_iff.1 success
    obtain ⟨_, resolved, -⟩ := Traced.except_bind_ok_iff.1 success
    refine ⟨?_, bounded, ⟨keyName, keyed⟩, ?_⟩
    · unfold checkName at checked
      split at checked
      · cases checked
      · next faultless => exact faultless
    · unfold resolvedType at resolved
      split at resolved
      · cases resolved
      · next used => exact Bool.eq_false_iff.2 used
  · rintro ⟨faultless, bounded, ⟨keyName, keyed⟩, used⟩
    have named : f.checkName owner = .ok () := by
      unfold checkName
      rw [faultless]
    have resolved : f.resolvedType owner = .ok (f.type.within owner) := by
      unfold resolvedType
      rw [used]
      rfl
    have ends : ∃ d, f.describe table owner parent = .ok d := by
      unfold describe
      rw [named, bounded, keyed, resolved]
      exact ⟨_, rfl⟩
    obtain ⟨d, ended⟩ := ends
    rw [ended, (describe_ok ended).1]

end Field

namespace Walk

variable {s : Scope} {owner : ObjectSchema} {parent : Path} {f : FieldDecl}

/-- A place is noted before its depth decides how the walk goes on. -/
theorem reach_bind {α : Type} (d : FieldDescriptor) (below beside : Walk α) :
    (do if ← reach d then below else beside) = (do
      Traced.note d
      if d.path.depth ≤ Path.maxDepth then below else beside) := by
  by_cases room : d.path.depth ≤ Path.maxDepth <;> simp [reach, room]

/-- The walk goes on below a field if there is room for it below its parent. -/
theorem reach_place {α : Type} (table : String) (owner : ObjectSchema) (parent : Path) (f : FieldDecl)
    (below beside : Walk α) :
    (do if ← reach (f.place table owner parent) then below else beside) = (do
      Traced.note (f.place table owner parent)
      if parent.depth < Path.maxDepth then below else beside) := by
  have depth : (f.place table owner parent).path.depth = parent.depth + 1 := f.depth_pathIn owner parent
  rw [reach_bind, depth]
  rfl

/-- The same for an item of a collection. -/
theorem reach_item {α : Type} (table keyName : String) (item : FieldType) (collection : Path)
    (below beside : Walk α) :
    (do if ← reach (.item table keyName item collection) then below else beside) = (do
      Traced.note (.item table keyName item collection)
      if collection.depth < Path.maxDepth then below else beside) := by
  have depth : (FieldDescriptor.item table keyName item collection).path.depth = collection.depth + 1 :=
    collection.depth_item keyName item
  rw [reach_bind, depth]
  rfl

theorem mem_note_ite {α : Type} {d e : FieldDescriptor} {room : Prop} [Decidable room]
    {below beside : Walk α}
    (noted : e ∈ (do Traced.note d; if room then below else beside : Walk α).notes) :
    e = d ∨ room ∧ e ∈ below.notes ∨ ¬ room ∧ e ∈ beside.notes := by
  rw [Traced.note_bind] at noted
  refine (List.mem_cons.1 noted).imp_right fun noted => ?_
  split at noted
  · next inside => exact .inl ⟨inside, noted⟩
  · next outside => exact .inr ⟨outside, noted⟩

/-- The walk of a list of fields whose first declaration passes its checks. -/
theorem visitFields_cons {rest : List FieldDecl}
    (described : f.describe s.table owner parent = .ok (f.place s.table owner parent)) :
    visitFields s owner parent (f :: rest) = (do
      Traced.note (f.place s.table owner parent)
      if parent.depth < Path.maxDepth then do
        visitBelow s f (f.place s.table owner parent) f.type
        let ds ← visitFields s owner parent rest
        return f.place s.table owner parent :: ds
      else visitFields s owner parent rest) := by
  rw [visitFields, described]
  exact reach_place s.table owner parent f _ _

theorem describe_of_visitFields_cons {rest : List FieldDecl} {ds : List FieldDescriptor}
    (success : (visitFields s owner parent (f :: rest)).result = .ok ds) :
    f.describe s.table owner parent = .ok (f.place s.table owner parent) := by
  rw [visitFields] at success
  obtain ⟨d, described, -⟩ := Traced.bind_ok_iff.1 success
  obtain ⟨rfl, -⟩ := Field.describe_ok described
  exact described

/-- What the first field of a list adds to the notes of the others. -/
theorem mem_visitFields_cons {rest : List FieldDecl} {e : FieldDescriptor}
    (noted : e ∈ (visitFields s owner parent (f :: rest)).notes) :
    (f.describe s.table owner parent = .ok (f.place s.table owner parent) ∧
      (e = f.place s.table owner parent ∨ parent.depth < Path.maxDepth ∧
        e ∈ (visitBelow s f (f.place s.table owner parent) f.type).notes)) ∨
    e ∈ (visitFields s owner parent rest).notes := by
  cases described : f.describe s.table owner parent with
  | error fault =>
    rw [visitFields, described] at noted
    cases noted
  | ok d =>
    obtain ⟨rfl, -⟩ := Field.describe_ok described
    rw [visitFields_cons described] at noted
    rcases mem_note_ite noted with rfl | ⟨room, noted⟩ | ⟨-, later⟩
    · exact .inl ⟨rfl, .inl rfl⟩
    · rcases Traced.mem_notes_bind_iff.1 noted with below | ⟨_, _, noted⟩
      · exact .inl ⟨rfl, .inr ⟨room, below⟩⟩
      · rcases Traced.mem_notes_bind_iff.1 noted with later | ⟨_, _, noted⟩
        · exact .inr later
        · cases noted
    · exact .inr later

/-- A noted place is the place of a field, or lies below one that is not too deep. -/
theorem mem_visitFields {fields : List FieldDecl} {e : FieldDescriptor}
    (noted : e ∈ (visitFields s owner parent fields).notes) :
    ∃ f ∈ fields, f.describe s.table owner parent = .ok (f.place s.table owner parent) ∧
      (e = f.place s.table owner parent ∨ parent.depth < Path.maxDepth ∧
        e ∈ (visitBelow s f (f.place s.table owner parent) f.type).notes) := by
  induction fields with
  | nil => simp [visitFields] at noted
  | cons f rest ih =>
    rcases mem_visitFields_cons noted with found | later
    · exact ⟨f, List.mem_cons_self, found⟩
    · obtain ⟨g, member, found⟩ := ih later
      exact ⟨g, List.mem_cons_of_mem f member, found⟩

/-- A run that is part of another: it ends well, and the other one notes all that it notes, in the same order. -/
def Within {α β : Type} (x : Walk α) (y : Walk β) : Prop :=
  (∃ a, x.result = .ok a) ∧ x.notes.Sublist y.notes

theorem Within.trans {α β γ : Type} {x : Walk α} {y : Walk β} {z : Walk γ} (first : x.Within y)
    (second : y.Within z) : x.Within z :=
  ⟨first.1, first.2.trans second.2⟩

/-- Both parts of a run that ends well are within it. -/
theorem within_bind {α β : Type} {x : Walk α} {next : α → Walk β} {b : β}
    (success : (x >>= next).result = .ok b) :
    x.Within (x >>= next) ∧ ∃ a, x.result = .ok a ∧ (next a).Within (x >>= next) := by
  obtain ⟨notes, e | a⟩ := x
  · cases success
  · rw [Traced.ok_bind] at success ⊢
    exact ⟨⟨⟨a, rfl⟩, List.sublist_append_left ..⟩, a, rfl, ⟨b, success⟩, List.sublist_append_right ..⟩

/-- The fields of a list in a walk that ends well: the first is described and noted, and walked below unless
it is too deep, and the others are walked. -/
theorem visitFields_cons_ok {rest : List FieldDecl} {ds : List FieldDescriptor}
    (success : (visitFields s owner parent (f :: rest)).result = .ok ds) :
    f.describe s.table owner parent = .ok (f.place s.table owner parent) ∧
      f.place s.table owner parent ∈ (visitFields s owner parent (f :: rest)).notes ∧
      (parent.depth < Path.maxDepth →
        (visitBelow s f (f.place s.table owner parent) f.type).Within
          (visitFields s owner parent (f :: rest))) ∧
      (visitFields s owner parent rest).Within (visitFields s owner parent (f :: rest)) := by
  have described := describe_of_visitFields_cons success
  rw [visitFields_cons described] at success ⊢
  by_cases room : parent.depth < Path.maxDepth
  · rw [if_pos room] at success ⊢
    obtain ⟨noted, _, _, onward⟩ := within_bind success
    obtain ⟨_, walked⟩ := onward.1
    obtain ⟨below, _, _, others⟩ := within_bind walked
    obtain ⟨_, walked⟩ := others.1
    have later := (within_bind walked).1
    exact ⟨described, noted.2.subset List.mem_cons_self, fun _ => below.trans onward,
      later.trans (others.trans onward)⟩
  · rw [if_neg room] at success ⊢
    obtain ⟨noted, _, _, onward⟩ := within_bind success
    exact ⟨described, noted.2.subset List.mem_cons_self, fun deeper => absurd deeper room, onward⟩

/-- In a walk that ends well every field is described and noted, and walked below unless it is too deep. -/
theorem visitFields_ok {fields : List FieldDecl} {ds : List FieldDescriptor}
    (success : (visitFields s owner parent fields).result = .ok ds) (member : f ∈ fields) :
    f.describe s.table owner parent = .ok (f.place s.table owner parent) ∧
      f.place s.table owner parent ∈ (visitFields s owner parent fields).notes ∧
      (parent.depth < Path.maxDepth →
        (visitBelow s f (f.place s.table owner parent) f.type).Within
          (visitFields s owner parent fields)) := by
  induction fields generalizing ds with
  | nil => cases member
  | cons g rest ih =>
    obtain ⟨described, noted, below, later⟩ := visitFields_cons_ok success
    rcases List.mem_cons.1 member with rfl | member
    · exact ⟨described, noted, below⟩
    · obtain ⟨_, walked⟩ := later.1
      obtain ⟨described, noted, below⟩ := ih walked member
      exact ⟨described, later.2.subset noted, fun room => (below room).trans later⟩

/-! ## Below a field -/

/-- Visit the fields of an item that is an object; nothing lies below other items. -/
def visitObject (s : Scope) (path : Path) : FieldType → Walk Unit
  | .object model => do
    let _ ← visitFields s model path model.fields
    return ()
  | _ => pure ()

theorem mem_visitObject {path : Path} {item : FieldType} {e : FieldDescriptor}
    (noted : e ∈ (visitObject s path item).notes) :
    ∃ model, item = .object model ∧ e ∈ (visitFields s model path model.fields).notes := by
  unfold visitObject at noted
  split at noted
  · next model =>
    rcases Traced.mem_notes_bind_iff.1 noted with below | ⟨_, _, noted⟩
    · exact ⟨model, rfl, below⟩
    · cases noted
  · cases noted

theorem visitLevel_eq (table : String) (item : FieldType) (path : Path) :
    visitLevel table item path = visitObject (.flat table) path item := by
  cases item <;> rfl

/-- A walk of an item notes the item and goes on below it unless it is too deep. -/
theorem visitItem_eq (keyName : String) (collection : Path) (item : FieldType) :
    visitItem s keyName collection item = (do
      Traced.note (.item s.table keyName item collection)
      if collection.depth < Path.maxDepth then visitObject s (collection.item keyName item) item
      else return ()) := by
  cases item with
  | object model => exact reach_item s.table keyName (.object model) collection _ _
  | _ =>
    change _ = (do Traced.note _; if collection.depth < Path.maxDepth then pure () else pure () : Walk Unit)
    rw [ite_self]
    rfl

/-- A walk of one more level notes its item, visits the item and goes on to the next level, unless the item is
too deep. -/
theorem unrollLevels_succ (table keyName : String) (item : FieldType) (step : PathStep)
    (count index : Nat) (collection : Path) :
    unrollLevels table keyName item step (count + 1) index collection = (do
      Traced.note (.item table (KeyName.level keyName index) item collection)
      if collection.depth < Path.maxDepth then do
        visitObject (.flat table) (collection.item (KeyName.level keyName index) item) item
        unrollLevels table keyName item step count (index + 1)
          ((collection.item (KeyName.level keyName index) item).child step)
      else return ()) := by
  rw [unrollLevels, visitLevel_eq]
  exact reach_item table (KeyName.level keyName index) item collection _ _

theorem visitBelow_object {model : ObjectSchema} (type : f.typeIn owner = .object model) :
    visitBelow s f (f.place s.table owner parent) f.type =
      visitObject s (f.pathIn owner parent) (.object model) := by
  rw [FieldType.within_eq_object type, visitBelow]
  rfl

/-- The two settings of a place that say how a walk goes on below a collection. -/
theorem place_dict (table : String) (parent : Path) {keyType : KeyType} {item : FieldType}
    (type : f.typeIn owner = .dict keyType item) :
    (f.place table owner parent).keyName = some f.keyVariable ∧
      (f.place table owner parent).itemType = some item := by
  simp [Field.place, type, FieldType.itemType?]

theorem visitBelow_indexed {keyType : KeyType} {item : FieldType}
    (type : f.typeIn owner = .dict keyType item) (indexed : KeyName.isIndexed f.keyVariable = true) :
    visitBelow s f (f.place s.table owner parent) f.type =
      s.unroll f f.keyVariable item (f.pathIn owner parent) := by
  obtain ⟨keyName, itemType⟩ := place_dict s.table parent type
  have dict : ∃ valueType, f.type = .dict keyType valueType := by
    rcases FieldType.within_eq_dict type with same | ⟨self, -⟩
    · exact ⟨item, same⟩
    · exact ⟨.selfRef, self⟩
  obtain ⟨valueType, dict⟩ := dict
  rw [dict, visitBelow, keyName, itemType]
  simp only [indexed, if_true]
  rfl

/-- Below a collection that is not indexed lies its item. The declared item type is no self reference. -/
theorem visitBelow_item {keyType : KeyType} {item : FieldType}
    (described : f.describe s.table owner parent = .ok (f.place s.table owner parent))
    (type : f.typeIn owner = .dict keyType item) (plain : KeyName.isIndexed f.keyVariable = false) :
    f.type = .dict keyType item ∧ visitBelow s f (f.place s.table owner parent) f.type =
      visitItem s f.keyVariable (f.pathIn owner parent) item := by
  obtain ⟨keyName, itemType⟩ := place_dict s.table parent type
  have dict : f.type = .dict keyType item := by
    rcases FieldType.within_eq_dict type with same | ⟨self, -⟩
    · exact same
    · have indexed := (Field.describe_ok described).2 keyType self
      rw [plain] at indexed
      cases indexed
  refine ⟨dict, ?_⟩
  rw [dict, visitBelow, keyName, itemType]
  simp only [plain, Bool.false_eq_true, if_false]
  rfl

/-- Nothing lies below a field of another type. -/
theorem visitBelow_other (owner : ObjectSchema) {d : FieldDescriptor}
    (object : ∀ model, f.typeIn owner ≠ .object model)
    (dict : ∀ keyType item, f.typeIn owner ≠ .dict keyType item) :
    visitBelow s f d f.type = pure () := by
  rw [visitBelow]
  · intro model type
    exact object model (by rw [Field.typeIn, type]; rfl)
  · intro keyType valueType type
    obtain ⟨item, within⟩ := FieldType.within_dict owner keyType valueType
    exact dict keyType item (by rw [Field.typeIn, type, within])

end Walk

end DocSchema
