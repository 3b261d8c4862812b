import DocSchema.Proofs.Schema.Exact

/-!
# Schemas written and read back

A field type is written as the members of an object, with the parts of nested types in objects of their own. The
settings of a field stand between those members, so a type is found again among members of other names. Nothing is
lost but a custom default that is null, however the members of objects are ordered.
-/

namespace DocSchema

open Json (Tree Spells Spelling RoundTrips)

variable {spell : Json → Tree}

namespace FieldType

/-! ## Members of a type -/

/-- The names of the members that say a type. -/
def partNames : List String :=
  ["type", "element_type", "model", "key_type", "value_type"]

theorem names_toMembers_sublist (t : FieldType) : (Assoc.names t.toMembers).Sublist partNames := by
  cases t with
  | list element => cases element <;> simp [toMembers, Assoc.names, partNames]
  | _ => simp [toMembers, Assoc.names, partNames]

theorem names_toMembers_nodup (t : FieldType) : (Assoc.names t.toMembers).Nodup :=
  List.Nodup.sublist t.names_toMembers_sublist (by decide)

theorem get?_toMembers_of_not_mem (t : FieldType) (name : String) (other : name ∉ partNames) :
    Assoc.get? name t.toMembers = none :=
  Assoc.get?_eq_none_iff.2 fun member => other (t.names_toMembers_sublist.subset member)

theorem get?_toMembers_type (t : FieldType) : Assoc.get? "type" t.toMembers = some (.str t.tag.name) := by
  cases t with
  | list element => cases element <;> rfl
  | _ => rfl

/-- Among the members of a tree are those of a type, as they are spelled. -/
structure Among (spell : Json → Tree) (t : FieldType) (members : List (String × Tree)) : Prop where
  distinct : (Assoc.names members).Nodup
  parts : ∀ name ∈ partNames, Assoc.get? name members = (Assoc.get? name t.toMembers).map spell

/-! ## Types and schemas that were written -/

/-- What a type reads back of its members, wherever they stand. -/
def ReadsBack (spell : Json → Tree) (t : FieldType) : Prop :=
  t.IsExact → ∀ nested members, t.Among spell members → readParts? nested members = some t

section Spelled

variable (spelling : Spelling spell)
include spelling

theorem exists_among (t : FieldType) :
    ∃ members, spell (.obj t.toMembers) = .obj members ∧ t.Among spell members := by
  obtain ⟨members, tree, spelled⟩ := spelling.obj _ t.names_toMembers_nodup
  exact ⟨members, tree, spelled.distinct, fun name _ => spelled.get? name⟩

theorem ReadsBack.read? {t : FieldType} (back : t.ReadsBack spell) (exact : t.IsExact) (nested : Bool) :
    FieldType.read? nested (spell (.obj t.toMembers)) = some t := by
  obtain ⟨members, tree, among⟩ := t.exists_among spelling
  rw [tree, read?_obj]
  exact back exact nested members among

theorem ofMembers?_of_among {t : FieldType} {members : List (String × Tree)} (among : t.Among spell members)
    (nested : Bool) : TypeTag.ofMembers? nested members = some t.tag := by
  have member := among.parts "type" (by decide)
  rw [get?_toMembers_type, Option.map_some, spelling.str] at member
  unfold TypeTag.ofMembers?
  rw [Tree.unique?_eq among.distinct, member]
  cases t.tag <;> rfl

end Spelled

end FieldType

/-! ### Fields -/

namespace Field

/-- The members of a declaration in the order in which they are written. -/
def toMembers (f : FieldDecl) : Json.Members :=
  [("name", .str f.name)] ++ f.type.toMembers ++ [("required", .bool f.required)] ++
    Assoc.optional "key_name" (f.keyName.map .str) ++ Assoc.optional "default" f.custom ++
    Assoc.optional "max_nested_depth" (f.maxNestedDepth.map fun n : Nat => .num (.int n))

theorem toJson_eq (f : FieldDecl) : f.toJson = .obj f.toMembers := by
  obtain ⟨name, type, required, keyName, custom, maxNestedDepth⟩ := f
  cases keyName <;> cases custom <;> cases maxNestedDepth <;> rfl

end Field

theorem FieldType.fieldsToJson_eq (fields : List FieldDecl) : fieldsToJson fields = fields.map Field.toJson := by
  induction fields with
  | nil => rfl
  | cons f rest ih => rw [fieldsToJson, ih, List.map_cons]; rfl

namespace Field

/-- The names of the members that say a field. -/
def memberNames : List String :=
  ["name"] ++ FieldType.partNames ++ ["required"] ++ ["key_name"] ++ ["default"] ++ ["max_nested_depth"]

theorem names_toMembers_nodup (f : FieldDecl) : (Assoc.names f.toMembers).Nodup := by
  have fewer : (Assoc.names f.toMembers).Sublist memberNames := by
    simp only [toMembers, Assoc.names_append]
    refine .append (.append (.append (.append (.append ?_ f.type.names_toMembers_sublist) ?_) ?_) ?_) ?_
    · exact .refl _
    · exact .refl _
    · exact Assoc.names_optional ..
    · exact Assoc.names_optional ..
    · exact Assoc.names_optional ..
  exact fewer.nodup (by decide)

section Settings

variable (f : FieldDecl)

theorem get?_required : Assoc.get? "required" f.toMembers = some (.bool f.required) := by
  have apart := f.type.get?_toMembers_of_not_mem "required" (by decide)
  simp [toMembers, Assoc.get?, apart]

theorem get?_keyName : Assoc.get? "key_name" f.toMembers = f.keyName.map .str := by
  have apart := f.type.get?_toMembers_of_not_mem "key_name" (by decide)
  simp [toMembers, Assoc.get?, apart]

theorem get?_default : Assoc.get? "default" f.toMembers = f.custom := by
  have apart := f.type.get?_toMembers_of_not_mem "default" (by decide)
  simp [toMembers, Assoc.get?, apart]

theorem get?_maxNestedDepth :
    Assoc.get? "max_nested_depth" f.toMembers = f.maxNestedDepth.map fun n : Nat => .num (.int n) := by
  have apart := f.type.get?_toMembers_of_not_mem "max_nested_depth" (by decide)
  simp [toMembers, Assoc.get?, apart]

/-- The settings of a field do not hide its type. -/
theorem get?_part {name : String} (part : name ∈ FieldType.partNames) :
    Assoc.get? name f.toMembers = Assoc.get? name f.type.toMembers := by
  have apart : ∀ setting ∈ ["name", "required", "key_name", "default", "max_nested_depth"], setting ≠ name := by
    revert name
    decide
  simp only [List.mem_cons, List.not_mem_nil, or_false, forall_eq_or_imp, forall_eq] at apart
  simp [toMembers, Assoc.get?, apart]

theorem among_of_spells {members : List (String × Tree)} (spelled : Spells spell members f.toMembers) :
    f.type.Among spell members :=
  ⟨spelled.distinct, fun name part => f.get?_part part ▸ spelled.get? name⟩

end Settings

/-- A declaration reads itself back if its type does. -/
theorem readField?_spelled (spelling : Spelling spell) {f : FieldDecl} (exact : f.IsExact)
    (back : f.type.ReadsBack spell) : FieldType.readField? (spell f.toJson) = some f := by
  obtain ⟨members, tree, spelled⟩ := spelling.obj _ f.names_toMembers_nodup
  -- One object says the type and the settings: the type is read among the settings, and they are read beside it.
  have among := f.among_of_spells spelled
  have type := back exact.type true members among
  rw [FieldType.readParts?, FieldType.ofMembers?_of_among spelling among] at type
  obtain ⟨parts, read, found⟩ := spelled.parts? ["name", "required", "key_name", "default", "max_nested_depth"]
  have name : parts.require Tree.str? "name" = some f.name :=
    Tree.Parts.require_of_find? (found "name" (by decide)) (spelling.str? f.name)
  have required : parts.get Tree.bool? "required" false = some f.required := by
    have member := found "required" (by decide)
    rw [f.get?_required] at member
    exact Tree.Parts.get_of_find? member (spelling.bool? f.required) false
  have keyName : parts.optional Tree.str? "key_name" = some f.keyName := by
    have member := found "key_name" (by decide)
    rw [f.get?_keyName] at member
    exact spelling.optional member fun k _ => ⟨by simp, spelling.str? k⟩
  have custom : parts.optional Tree.value? "default" = some f.custom := by
    have member := found "default" (by decide)
    rw [f.get?_default] at member
    exact exact.settings.custom.optional spelling member
  have maxNestedDepth : parts.optional (Tree.nat? Word.unsignedBound) "max_nested_depth" =
      some f.maxNestedDepth := by
    have member := found "max_nested_depth" (by decide)
    rw [f.get?_maxNestedDepth] at member
    exact spelling.optional member fun n same =>
      ⟨by simp, spelling.nat? (exact.settings.maxNestedDepth n same)⟩
  rw [f.toJson_eq, tree, FieldType.readField?, read]
  simp only [Option.bind_eq_bind, Option.bind_some] at type ⊢
  rw [FieldType.ofMembers?_of_among spelling among, Option.bind_some, type, name, required, keyName, custom,
    maxNestedDepth]
  rfl

end Field

/-! ### Schemas -/

namespace Model

def toMembers (m : ObjectSchema) : Json.Members :=
  [("name", .str m.name)] ++ Assoc.optional "description" (m.description.map .str) ++
    [("fields", .arr (FieldType.fieldsToJson m.fields))]

theorem toJson_eq (m : ObjectSchema) : m.toJson = .obj m.toMembers := by
  obtain ⟨name, description, fields⟩ := m
  cases description <;> rfl

theorem names_toMembers_nodup (m : ObjectSchema) : (Assoc.names m.toMembers).Nodup := by
  have fewer : (Assoc.names m.toMembers).Sublist (["name"] ++ ["description"] ++ ["fields"]) := by
    simp only [toMembers, Assoc.names_append]
    exact .append (.append (.refl _) (Assoc.names_optional ..)) (.refl _)
  exact fewer.nodup (by decide)

/-- A schema reads itself back if its fields do. -/
theorem readSchema?_spelled (spelling : Spelling spell) {m : ObjectSchema}
    (back : ∀ f ∈ m.fields, FieldType.readField? (spell f.toJson) = some f) :
    FieldType.readSchema? (spell m.toJson) = some m := by
  obtain ⟨members, tree, spelled⟩ := spelling.obj _ m.names_toMembers_nodup
  obtain ⟨parts, read, found⟩ := spelled.parts? ["name", "description", "fields"]
  have name : parts.require Tree.str? "name" = some m.name :=
    Tree.Parts.require_of_find? (found "name" (by decide)) (spelling.str? m.name)
  have description : parts.optional Tree.str? "description" = some m.description := by
    have member := found "description" (by decide)
    have part : Assoc.get? "description" m.toMembers = m.description.map .str := by
      simp [toMembers, Assoc.get?]
    rw [part] at member
    exact spelling.optional member fun d _ => ⟨by simp, spelling.str? d⟩
  have fields : FieldType.readFieldsMember? members = some m.fields := by
    have part : Assoc.get? "fields" m.toMembers = some (.arr (FieldType.fieldsToJson m.fields)) := by
      simp [toMembers, Assoc.get?]
    rw [FieldType.readFieldsMember?_eq, spelled.get?, part, Option.map_some, spelling.arr,
      FieldType.fieldsToJson_eq]
    exact (FieldType.readFields?_eq _).trans (Json.mapM_spelled back)
  rw [m.toJson_eq, tree, FieldType.readSchema?, read]
  simp only [Option.bind_eq_bind, Option.bind_some]
  rw [name, description, fields]
  rfl

end Model

/-! ### Types -/

namespace FieldType

/-- Every type reads itself back among the members of an object. -/
theorem readsBack (spelling : Spelling spell) (t : FieldType) : t.ReadsBack spell := by
  induction t using FieldType.induct with
  | list element inside =>
    intro exact nested members among
    rw [readParts?, ofMembers?_of_among spelling among]
    change (readElement? members).map FieldType.list = _
    rw [readElement?_eq, readMember?_of_nodup among.distinct, among.parts "element_type" (by decide)]
    cases element with
    | none => rfl
    | some e =>
      have back := (inside e rfl).read? spelling (isExact_list_iff.1 exact) true
      obtain ⟨inner, tree, -⟩ := e.exists_among spelling
      change (optional? (spell (.obj e.toMembers)) (read? true (spell (.obj e.toMembers)))).map _ = _
      rw [back, tree]
      rfl
  | object model inside =>
    intro exact nested members among
    rw [readParts?, ofMembers?_of_among spelling among]
    change (readModel? members).map FieldType.object = _
    rw [readModel?_eq, readMember?_of_nodup among.distinct, among.parts "model" (by decide)]
    have fields := isExact_object_iff.1 exact
    have back := model.readSchema?_spelled spelling fun f declared =>
      Field.readField?_spelled spelling (fields f declared) (inside f declared)
    exact congrArg (Option.map FieldType.object) back
  | dict keyType valueType inside =>
    intro exact nested members among
    rw [readParts?, ofMembers?_of_among spelling among]
    have back := inside.read? spelling (isExact_dict_iff.1 exact) true
    have value : readValue? members = some valueType := by
      rw [readValue?_eq, readMember?_of_nodup among.distinct, among.parts "value_type" (by decide)]
      exact back
    have key : keyTypeOf? members = some keyType := by
      have tree : Tree.unique? "key_type" members = some (some (spell (.str keyType.name))) := by
        rw [Tree.unique?_eq among.distinct, among.parts "key_type" (by decide)]
        rfl
      rw [keyTypeOf?, tree, spelling.str]
      cases keyType <;> rfl
    rw [value, key]
    rfl
  | _ =>
    intro exact nested members among
    rw [readParts?, ofMembers?_of_among spelling among]
    rfl

theorem roundTrips : RoundTrips toJson ofTree? IsExact := by
  refine .of (fun t exact => ?_) fun tree t read => ?_
  · rw [ofTree?, Json.spelling_written.readable, if_pos rfl]
    exact (t.readsBack Json.spelling_written).read? Json.spelling_written exact false
  · unfold ofTree? at read
    split at read
    · exact (readsExactly tree).type false t read
    · cases read

end FieldType

namespace Field

theorem roundTrips : RoundTrips toJson ofTree? IsExact := by
  refine .of (fun f exact => ?_) fun tree f read => ?_
  · rw [ofTree?, Json.spelling_written.readable, if_pos rfl]
    exact readField?_spelled Json.spelling_written exact (f.type.readsBack Json.spelling_written)
  · unfold ofTree? at read
    split at read
    · exact (FieldType.readsExactly tree).field f read
    · cases read

end Field

namespace Model

theorem fieldsReadable_spelled (spelling : Spelling spell) (m : ObjectSchema) :
    fieldsReadable (spell m.toJson) = true := by
  obtain ⟨members, tree, spelled⟩ := spelling.obj _ m.names_toMembers_nodup
  rw [m.toJson_eq, tree, fieldsReadable, spelled.get?, Option.all_eq_true]
  intro t held
  obtain ⟨v, -, rfl⟩ := Option.map_eq_some_iff.1 held
  exact spelling.readable v

/-- A schema is read back in every spelling. -/
theorem ofTree?_spelled (spelling : Spelling spell) {m : ObjectSchema} (exact : m.IsExact) :
    ofTree? (spell m.toJson) = some m := by
  rw [ofTree?, fieldsReadable_spelled spelling, if_pos rfl]
  exact readSchema?_spelled spelling fun f declared =>
    Field.readField?_spelled spelling (exact f declared) (f.type.readsBack spelling)

theorem isExact_of_ofTree? {t : Tree} {m : ObjectSchema} (read : ofTree? t = some m) : m.IsExact := by
  unfold ofTree? at read
  split at read
  · exact (FieldType.readsExactly t).schema m read
  · cases read

theorem roundTrips : RoundTrips toJson ofTree? IsExact :=
  .of (fun _ => ofTree?_spelled Json.spelling_written) fun _ _ => isExact_of_ofTree?

end Model

end DocSchema
