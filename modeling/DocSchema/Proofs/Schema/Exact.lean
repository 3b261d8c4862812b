import DocSchema.Proofs.Json.Written
import DocSchema.Proofs.Schema.Step
import DocSchema.Schema.Form

/-!
# Schemas that are read

A text can say every schema whose numbers fit their words and whose custom defaults are in canonical form and not
null, since null stands for a default that is left out. Only such schemas are read, whatever their form.
-/

namespace DocSchema

open Json (Tree)

/-! ## Schemas that a text can say -/

/-- The settings of a field are such as a text can say. -/
structure Field.HasExactSettings (f : FieldDecl) : Prop where
  custom : Json.ExactDefault f.custom
  maxNestedDepth : ∀ n, f.maxNestedDepth = some n → n < Word.unsignedBound

/-- All fields that occur in the type, at any depth, have exact settings. -/
def FieldType.IsExact (t : FieldType) : Prop :=
  ∀ model, t.Holds model → ∀ f ∈ model.fields, f.HasExactSettings

structure Field.IsExact (f : FieldDecl) : Prop where
  settings : f.HasExactSettings
  type : f.type.IsExact

def Model.IsExact (m : ObjectSchema) : Prop :=
  ∀ f ∈ m.fields, f.IsExact

namespace FieldType

theorem isExact_object_iff {m : ObjectSchema} : (FieldType.object m).IsExact ↔ m.IsExact := by
  constructor
  · intro exact f declared
    exact ⟨exact m (.here m) f declared, fun model inside => exact model (.field declared inside)⟩
  · intro exact model held f declared
    cases held with
    | here => exact (exact f declared).settings
    | field outer inside => exact (exact _ outer).type model inside f declared

theorem isExact_list_iff {element : FieldType} : (FieldType.list (some element)).IsExact ↔ element.IsExact := by
  constructor
  · exact fun exact model inside => exact model (.element inside)
  · intro exact model held
    cases held with
    | element inside => exact exact model inside

theorem isExact_dict_iff {keyType : KeyType} {valueType : FieldType} :
    (FieldType.dict keyType valueType).IsExact ↔ valueType.IsExact := by
  constructor
  · exact fun exact model inside => exact model (.value inside)
  · intro exact model held
    cases held with
    | value inside => exact exact model inside

/-- A property holds of every type if each type inherits it from the types that it is made of. -/
theorem induct {P : FieldType → Prop} (any : P .any) (string : P .string) (int : P .int) (float : P .float)
    (bool : P .bool) (list : ∀ element, (∀ e, element = some e → P e) → P (.list element)) (map : P .map)
    (object : ∀ model : ObjectSchema, (∀ f ∈ model.fields, P f.type) → P (.object model))
    (dict : ∀ keyType valueType, P valueType → P (.dict keyType valueType)) (selfRef : P .selfRef) : ∀ t, P t
  | .any => any
  | .string => string
  | .int => int
  | .float => float
  | .bool => bool
  | .list none => list none nofun
  | .list (some e) => list (some e) fun _ same =>
    Option.some.inj same ▸ induct any string int float bool list map object dict selfRef e
  | .map => map
  | .object model => object model fun f declared =>
    have := Model.sizeOf_type_lt declared
    induct any string int float bool list map object dict selfRef f.type
  | .dict keyType valueType =>
    dict keyType valueType (induct any string int float bool list map object dict selfRef valueType)
  | .selfRef => selfRef
termination_by t => sizeOf t
decreasing_by
  all_goals
    simp only [FieldType.list.sizeOf_spec, FieldType.object.sizeOf_spec, FieldType.dict.sizeOf_spec,
      Option.some.sizeOf_spec]
    omega

/-! ## Readers of members -/

/-- The type among the members of an object. -/
def readParts? (nested : Bool) (members : List (String × Tree)) : Option FieldType := do
  let tag ← TypeTag.ofMembers? nested members
  ofParts? tag (readElement? members) (readModel? members) (keyTypeOf? members) (readValue? members)

theorem read?_obj (nested : Bool) (members : List (String × Tree)) :
    read? nested (.obj members) = readParts? nested members := by
  rw [read?]
  rfl

section Members

variable {α : Type} {name : String} {read : Tree → Option α} {absent : Option α} {members : List (String × Tree)}

/-- Read the member of one name, unless it is repeated. -/
def readMember? (name : String) (read : Tree → Option α) (absent : Option α) : List (String × Tree) → Option α
  | [] => absent
  | (n, t) :: rest =>
    if n = name then
      if Assoc.contains n rest then none else read t
    else readMember? name read absent rest

theorem readElement?_eq (members : List (String × Tree)) :
    readElement? members =
      readMember? "element_type" (fun t => optional? t (read? true t)) (some none) members := by
  induction members with
  | nil => rfl
  | cons m rest ih => rw [readElement?, readMember?, ih]

theorem readModel?_eq (members : List (String × Tree)) :
    readModel? members = readMember? "model" readSchema? none members := by
  induction members with
  | nil => rfl
  | cons m rest ih => rw [readModel?, readMember?, ih]

theorem readValue?_eq (members : List (String × Tree)) :
    readValue? members = readMember? "value_type" (read? true) none members := by
  induction members with
  | nil => rfl
  | cons m rest ih => rw [readValue?, readMember?, ih]

/-- Where no name is repeated, the member is the one that is looked up. -/
theorem readMember?_of_nodup (distinct : (Assoc.names members).Nodup) :
    readMember? name read absent members = (Assoc.get? name members).elim absent read := by
  induction members with
  | nil => rfl
  | cons m rest ih =>
    obtain ⟨n, t⟩ := m
    obtain ⟨fresh, distinct⟩ := List.nodup_cons.1 distinct
    rw [readMember?, Assoc.get?]
    by_cases here : n = name
    · have once : Assoc.contains n rest = false := by
        rw [Assoc.contains, Assoc.get?_eq_none_iff.2 fresh]
        rfl
      rw [if_pos here, if_pos here, if_neg (by simp [once])]
      rfl
    · rw [if_neg here, if_neg here, ih distinct]

theorem exists_member_of_readMember? {a : α} (found : readMember? name read absent members = some a)
    (given : absent ≠ some a) : ∃ t, (name, t) ∈ members ∧ read t = some a := by
  induction members with
  | nil => exact absurd found given
  | cons m rest ih =>
    obtain ⟨n, t⟩ := m
    rw [readMember?] at found
    split at found
    · next here =>
      split at found
      · cases found
      · exact ⟨t, here ▸ List.mem_cons_self, found⟩
    · obtain ⟨u, held, value⟩ := ih found
      exact ⟨u, List.mem_cons_of_mem _ held, value⟩

theorem readFieldsMember?_eq :
    readFieldsMember? members =
      match Assoc.get? "fields" members with
      | none => some []
      | some t => readFieldArray? t := by
  induction members with
  | nil => rfl
  | cons m rest ih =>
    obtain ⟨name, t⟩ := m
    rw [readFieldsMember?, Assoc.get?]
    by_cases here : name = "fields"
    · rw [if_pos here, if_pos here]
    · rw [if_neg here, if_neg here, ih]

theorem readFields?_eq (items : List Tree) : readFields? items = items.mapM readField? := by
  induction items with
  | nil => rfl
  | cons t rest ih => rw [readFields?, List.mapM_cons, ih]

end Members

/-! ## What is read is exact -/

theorem eq_of_optional? {α : Type} {t : Tree} {read : Option α} {a : α}
    (found : optional? t read = some (some a)) : read = some a := by
  unfold optional? at found
  split at found
  · cases found
  · obtain ⟨_, value, ⟨⟩⟩ := Option.map_eq_some_iff.1 found
    exact value

/-- What is read of a tree is exact, whatever it is read as. -/
structure ReadsExactly (t : Tree) : Prop where
  type : ∀ nested type, read? nested t = some type → type.IsExact
  schema : ∀ model, readSchema? t = some model → model.IsExact
  field : ∀ f, readField? t = some f → f.IsExact
  fields : ∀ fs, readFieldArray? t = some fs → ∀ f ∈ fs, f.IsExact

theorem isExact_of_ofParts? {tag : TypeTag} {element : Option (Option FieldType)} {model : Option ObjectSchema}
    {keyType : Option KeyType} {valueType : Option FieldType} {t : FieldType}
    (made : ofParts? tag element model keyType valueType = some t)
    (elements : ∀ e, element = some (some e) → e.IsExact) (models : ∀ m, model = some m → m.IsExact)
    (values : ∀ v, valueType = some v → v.IsExact) : t.IsExact := by
  cases tag with
  | list =>
    obtain ⟨e, rfl, rfl⟩ := Option.map_eq_some_iff.1 made
    cases e with
    | none => exact nofun
    | some e => exact isExact_list_iff.2 (elements e rfl)
  | object =>
    obtain ⟨m, rfl, rfl⟩ := Option.map_eq_some_iff.1 made
    exact isExact_object_iff.2 (models m rfl)
  | dict =>
    obtain ⟨k, rfl, made⟩ := Option.bind_eq_some_iff.1 made
    obtain ⟨v, rfl, made⟩ := Option.bind_eq_some_iff.1 made
    cases made
    exact isExact_dict_iff.2 (values v rfl)
  | _ =>
    cases made
    exact nofun

section Inside

variable {items : List Tree} {members : List (String × Tree)}

theorem isExact_of_array (inside : ∀ t ∈ items, ReadsExactly t) {nested : Bool} {type : FieldType}
    (read : read? nested (.arr items) = some type) : type.IsExact := by
  rcases items with _ | ⟨tag, _ | ⟨part, _ | ⟨valueType, _ | _⟩⟩⟩
  · cases read
  · rw [read?] at read
    obtain ⟨_, _, made⟩ := Option.bind_eq_some_iff.1 read
    exact isExact_of_ofParts? made nofun nofun nofun
  · rw [read?] at read
    obtain ⟨_, _, read⟩ := Option.bind_eq_some_iff.1 read
    split at read
    · obtain ⟨element, found, read⟩ := Option.bind_eq_some_iff.1 read
      cases read
      cases element with
      | none => exact nofun
      | some e => exact isExact_list_iff.2 ((inside part (by simp)).type true e (eq_of_optional? found))
    · obtain ⟨model, found, rfl⟩ := Option.map_eq_some_iff.1 read
      exact isExact_object_iff.2 ((inside part (by simp)).schema model found)
    · cases read
  · rw [read?] at read
    obtain ⟨_, _, read⟩ := Option.bind_eq_some_iff.1 read
    split at read
    · obtain ⟨_, _, read⟩ := Option.bind_eq_some_iff.1 read
      obtain ⟨value, found, read⟩ := Option.bind_eq_some_iff.1 read
      cases read
      exact isExact_dict_iff.2 ((inside valueType (by simp)).type true value found)
    · cases read
  · cases read

theorem isExact_of_schemaArray (inside : ∀ t ∈ items, ReadsExactly t) {model : ObjectSchema}
    (read : readSchema? (.arr items) = some model) : model.IsExact := by
  rcases items with _ | ⟨name, _ | ⟨description, _ | ⟨fields, _ | _⟩⟩⟩
  · cases read
  · rw [readSchema?] at read
    obtain ⟨_, _, read⟩ := Option.bind_eq_some_iff.1 read
    cases read
    exact nofun
  · rw [readSchema?] at read
    obtain ⟨_, _, read⟩ := Option.bind_eq_some_iff.1 read
    obtain ⟨_, _, read⟩ := Option.bind_eq_some_iff.1 read
    cases read
    exact nofun
  · rw [readSchema?] at read
    obtain ⟨_, _, read⟩ := Option.bind_eq_some_iff.1 read
    obtain ⟨_, _, read⟩ := Option.bind_eq_some_iff.1 read
    obtain ⟨fs, found, read⟩ := Option.bind_eq_some_iff.1 read
    cases read
    exact (inside fields (by simp)).fields fs found
  · cases read

theorem isExact_of_parts (inside : ∀ name t, (name, t) ∈ members → ReadsExactly t) {nested : Bool}
    {type : FieldType} (read : readParts? nested members = some type) : type.IsExact := by
  obtain ⟨tag, _, made⟩ := Option.bind_eq_some_iff.1 read
  refine isExact_of_ofParts? made (fun e found => ?_) (fun m found => ?_) fun v found => ?_
  · obtain ⟨t, held, value⟩ := exists_member_of_readMember? ((readElement?_eq members).symm.trans found) nofun
    exact (inside _ t held).type true e (eq_of_optional? value)
  · obtain ⟨t, held, value⟩ := exists_member_of_readMember? ((readModel?_eq members).symm.trans found) nofun
    exact (inside _ t held).schema m value
  · obtain ⟨t, held, value⟩ := exists_member_of_readMember? ((readValue?_eq members).symm.trans found) nofun
    exact (inside _ t held).type true v value

theorem isExact_of_schemaObject (inside : ∀ name t, (name, t) ∈ members → ReadsExactly t) {model : ObjectSchema}
    (read : readSchema? (.obj members) = some model) : model.IsExact := by
  rw [readSchema?] at read
  obtain ⟨parts, _, read⟩ := Option.bind_eq_some_iff.1 read
  obtain ⟨name, _, read⟩ := Option.bind_eq_some_iff.1 read
  obtain ⟨description, _, read⟩ := Option.bind_eq_some_iff.1 read
  obtain ⟨fields, found, read⟩ := Option.bind_eq_some_iff.1 read
  cases read
  rw [readFieldsMember?_eq] at found
  split at found
  · cases found
    exact nofun
  · next t held => exact (inside "fields" t (Assoc.mem_of_get? held)).fields fields found

theorem isExact_of_fieldObject (inside : ∀ name t, (name, t) ∈ members → ReadsExactly t) {f : FieldDecl}
    (read : readField? (.obj members) = some f) : f.IsExact := by
  rw [readField?] at read
  obtain ⟨settings, _, read⟩ := Option.bind_eq_some_iff.1 read
  obtain ⟨tag, tagged, read⟩ := Option.bind_eq_some_iff.1 read
  obtain ⟨type, made, read⟩ := Option.bind_eq_some_iff.1 read
  obtain ⟨name, _, read⟩ := Option.bind_eq_some_iff.1 read
  obtain ⟨required, _, read⟩ := Option.bind_eq_some_iff.1 read
  obtain ⟨keyName, _, read⟩ := Option.bind_eq_some_iff.1 read
  obtain ⟨custom, default, read⟩ := Option.bind_eq_some_iff.1 read
  obtain ⟨maxNestedDepth, depth, read⟩ := Option.bind_eq_some_iff.1 read
  cases read
  refine ⟨⟨Json.exactDefault_of_optional default, ?_⟩, ?_⟩
  · rintro n rfl
    obtain ⟨t, value⟩ := Tree.Parts.exists_of_optional depth
    exact Tree.lt_of_nat? value
  · exact isExact_of_parts inside (Option.bind_eq_some_iff.2 ⟨tag, tagged, made⟩)

end Inside

theorem readsExactly (t : Tree) : ReadsExactly t := by
  -- A type has schemas as parts, a schema has fields, and a field is a type again: all four readings of a tree are
  -- shown at once, by induction over the tree.
  induction t using Tree.induct with
  | arr items inside =>
    refine ⟨fun _ _ => isExact_of_array inside, fun _ => isExact_of_schemaArray inside, nofun, ?_⟩
    intro fs read f declared
    obtain ⟨t, held, value⟩ := exists_of_mapM ((readFields?_eq items).symm.trans read) declared
    exact (inside t held).field f value
  | obj members inside =>
    refine ⟨fun nested type read => ?_, fun _ => isExact_of_schemaObject inside,
      fun _ => isExact_of_fieldObject inside, nofun⟩
    exact isExact_of_parts inside (read?_obj nested members ▸ read)
  | _ => exact ⟨nofun, nofun, nofun, nofun⟩

end FieldType

end DocSchema
