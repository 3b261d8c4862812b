import DocSchema.Proofs.Validation.Check

/-!
# Violations

A check fails exactly if some required place of the value is violated (`Violates`): by a value of another kind,
or by no value. What is in an undeclared member, or under a key that is not accepted, is not part of any
required place, and neither is what a store makes of numbers.
-/

namespace DocSchema

/-- A required place, at or below a value that is checked for `type`, holds a value of another kind than
declared, or nothing. -/
inductive Violates : FieldType → Bool → Json → Prop
  | kind {t : FieldType} {v : Json} (other : t.admits v = false) : Violates t true v
  | item {element : FieldType} {required : Bool} {items : List Json} {v : Json} (member : v ∈ items)
      (inside : Violates element false v) : Violates (.list (some element)) required (.arr items)
  | entry {keyType : KeyType} {valueType : FieldType} {required : Bool} {members : List (String × Json)}
      {key : String} {v : Json} (member : (key, v) ∈ members) (accepted : keyType.accepts key = true)
      (inside : Violates valueType false v) : Violates (.dict keyType valueType) required (.obj members)
  | member {model : ObjectSchema} {required : Bool} {members : List (String × Json)} {key : String}
      {v : Json} {f : FieldDecl} (member : (key, v) ∈ members) (declared : model.find? key = some f)
      (inside : Violates (f.type.within model) f.required v) :
      Violates (.object model) required (.obj members)
  | absent {model : ObjectSchema} {required : Bool} {members : List (String × Json)} {f : FieldDecl}
      (declared : f ∈ model.fields) (needed : f.required = true) (lacks : ¬ ∃ v, (f.name, v) ∈ members) :
      Violates (.object model) required (.obj members)

namespace Violates

variable {required : Bool}

theorem kind_iff {t : FieldType} {v : Json} (other : t.admits v = false) :
    Violates t required v ↔ required = true := by
  constructor
  · intro violated
    cases violated with
    | kind _ => rfl
    | _ => cases other
  · rintro rfl
    exact .kind other

theorem not_of_leaf {t : FieldType} {v : Json} (leaf : t.isLeaf = true) (admitted : t.admits v = true) :
    ¬ Violates t required v := by
  intro violated
  cases violated with
  | kind other =>
    rw [admitted] at other
    cases other
  | _ => cases leaf

theorem list_iff {element : FieldType} {items : List Json} :
    Violates (.list (some element)) required (.arr items) ↔ ∃ v ∈ items, Violates element false v := by
  constructor
  · intro violated
    cases violated with
    | kind other => cases other
    | item member inside => exact ⟨_, member, inside⟩
  · intro below
    obtain ⟨v, member, inside⟩ := below
    exact .item member inside

theorem dict_iff {keyType : KeyType} {valueType : FieldType} {members : List (String × Json)} :
    Violates (.dict keyType valueType) required (.obj members) ↔
      ∃ key v, (key, v) ∈ members ∧ keyType.accepts key = true ∧ Violates valueType false v := by
  constructor
  · intro violated
    cases violated with
    | kind other => cases other
    | entry member accepted inside => exact ⟨_, _, member, accepted, inside⟩
  · intro below
    obtain ⟨key, v, member, accepted, inside⟩ := below
    exact .entry member accepted inside

theorem object_iff {model : ObjectSchema} {members : List (String × Json)} :
    Violates (.object model) required (.obj members) ↔
      (∃ key v f, (key, v) ∈ members ∧ model.find? key = some f ∧
        Violates (f.type.within model) f.required v) ∨
      ∃ f ∈ model.fields, f.required = true ∧ ¬ ∃ v, (f.name, v) ∈ members := by
  constructor
  · intro violated
    cases violated with
    | kind other => cases other
    | member member declared inside => exact .inl ⟨_, _, _, member, declared, inside⟩
    | absent declared needed lacks => exact .inr ⟨_, declared, needed, lacks⟩
  · intro below
    rcases below with ⟨key, v, f, member, declared, inside⟩ | ⟨f, declared, needed, lacks⟩
    · exact .member member declared inside
    · exact .absent declared needed lacks

end Violates

namespace Validator

variable (coercion : Coercion) (required : Bool) (field : String)

theorem checkMember_fails_iff {model : ObjectSchema} {key : String} {v : Json} :
    (checkMember coercion model field (key, v)).Fails ↔ ∃ f, model.find? key = some f ∧
      (check coercion (f.type.within model) f.required (join field key) v).Fails := by
  unfold checkMember
  cases model.find? key with
  | none => simp [drop]
  | some f => simp

theorem checkEntry_fails_iff {keyType : KeyType} {valueType : FieldType} {key : String} {v : Json} :
    (checkEntry coercion keyType valueType field (key, v)).Fails ↔ keyType.accepts key = true ∧
      (check coercion valueType false (join field key) v).Fails := by
  unfold checkEntry
  cases keyType.accepts key with
  | false => simp [drop]
  | true => simp

/-- A check fails exactly if a required place of the value is violated. -/
theorem check_fails_iff {t : FieldType} {v : Json} :
    (check coercion t required field v).Fails ↔ Violates t required v := by
  induction t, v using induct generalizing required field with
  | mismatch t v other => rw [check_of_not_admits other, mismatch_fails_iff, Violates.kind_iff other]
  | list element items ih =>
    rw [check_list_fails_iff, Violates.list_iff]
    constructor
    · intro fails
      obtain ⟨item, inside, fails⟩ := fails
      have member := mem_items_iff.2 ⟨item, inside, rfl⟩
      have violated := (ih item.1 member false _).1 fails
      exact ⟨item.1, member, violated⟩
    · intro violated
      obtain ⟨v, member, violated⟩ := violated
      obtain ⟨item, inside, rfl⟩ := mem_items_iff.1 member
      have fails := (ih item.1 member false s!"{field}[{item.2}]").2 violated
      exact ⟨item, inside, fails⟩
  | object model members ih =>
    rw [check_object_fails_iff, Violates.object_iff]
    refine or_congr ⟨?_, ?_⟩ Iff.rfl
    · intro fails
      obtain ⟨⟨key, v⟩, member, fails⟩ := fails
      obtain ⟨f, found, fails⟩ := (checkMember_fails_iff coercion field).1 fails
      have violated := (ih key v f member found _ _).1 fails
      exact ⟨key, v, f, member, found, violated⟩
    · intro violated
      obtain ⟨key, v, f, member, found, violated⟩ := violated
      have fails := (ih key v f member found f.required (join field key)).2 violated
      exact ⟨(key, v), member, (checkMember_fails_iff coercion field).2 ⟨f, found, fails⟩⟩
  | dict keyType valueType members ih =>
    rw [check_dict_fails_iff, Violates.dict_iff]
    constructor
    · intro fails
      obtain ⟨⟨key, v⟩, member, fails⟩ := fails
      obtain ⟨accepted, fails⟩ := (checkEntry_fails_iff coercion field).1 fails
      have violated := (ih key v member false _).1 fails
      exact ⟨key, v, member, accepted, violated⟩
    · intro violated
      obtain ⟨key, v, member, accepted, violated⟩ := violated
      have fails := (ih key v member false (join field key)).2 violated
      exact ⟨(key, v), member, (checkEntry_fails_iff coercion field).2 ⟨accepted, fails⟩⟩
  | leaf t v leaf admitted =>
    rw [check_of_leaf leaf admitted]
    exact iff_of_false (by simp) (Violates.not_of_leaf leaf admitted)

end Validator

namespace FieldType

mutual

/-- The value without undeclared members and without members under keys that are not accepted, at any depth. -/
def declaredPart : FieldType → Json → Json
  | .list (some element), .arr items => .arr (declaredItems element items)
  | .object model, .obj members => .obj (declaredMembers model members)
  | .dict keyType valueType, .obj members => .obj (declaredEntries keyType valueType members)
  | _, v => v

def declaredItems (element : FieldType) : List Json → List Json
  | [] => []
  | v :: rest => element.declaredPart v :: declaredItems element rest

def declaredMembers (model : ObjectSchema) : List (String × Json) → List (String × Json)
  | [] => []
  | (key, v) :: rest =>
    match model.find? key with
    | some f => (key, (f.type.within model).declaredPart v) :: declaredMembers model rest
    | none => declaredMembers model rest

def declaredEntries (keyType : KeyType) (valueType : FieldType) : List (String × Json) → List (String × Json)
  | [] => []
  | (key, v) :: rest =>
    if keyType.accepts key then (key, valueType.declaredPart v) :: declaredEntries keyType valueType rest
    else declaredEntries keyType valueType rest

end

theorem declaredItems_eq_map (element : FieldType) (items : List Json) :
    declaredItems element items = items.map element.declaredPart := by
  induction items with
  | nil => rfl
  | cons v rest ih => rw [declaredItems, ih, List.map_cons]

theorem mem_declaredMembers_iff {model : ObjectSchema} {members : List (String × Json)} {key : String}
    {w : Json} : (key, w) ∈ declaredMembers model members ↔
      ∃ v f, (key, v) ∈ members ∧ model.find? key = some f ∧ (f.type.within model).declaredPart v = w := by
  have filtered : declaredMembers model members = members.filterMap fun m =>
      (model.find? m.1).map fun f => (m.1, (f.type.within model).declaredPart m.2) := by
    induction members with
    | nil => rfl
    | cons m rest ih =>
      obtain ⟨name, v⟩ := m
      rw [declaredMembers, ih, List.filterMap_cons]
      cases model.find? name <;> rfl
  rw [filtered, List.mem_filterMap]
  constructor
  · rintro ⟨⟨name, v⟩, member, stays⟩
    obtain ⟨f, found, ⟨⟩⟩ := Option.map_eq_some_iff.1 stays
    exact ⟨v, f, member, found, rfl⟩
  · rintro ⟨v, f, member, found, rfl⟩
    exact ⟨(key, v), member, Option.map_eq_some_iff.2 ⟨f, found, rfl⟩⟩

/-- No declared member is taken away. -/
theorem exists_mem_declaredMembers_iff {model : ObjectSchema} {members : List (String × Json)}
    {f : FieldDecl} (declared : f ∈ model.fields) :
    (∃ w, (f.name, w) ∈ declaredMembers model members) ↔ ∃ v, (f.name, v) ∈ members := by
  constructor
  · intro stays
    obtain ⟨w, stays⟩ := stays
    obtain ⟨v, -, member, -, -⟩ := mem_declaredMembers_iff.1 stays
    exact ⟨v, member⟩
  · intro present
    obtain ⟨v, member⟩ := present
    obtain ⟨g, found⟩ := Model.exists_find?_eq_some declared
    exact ⟨_, mem_declaredMembers_iff.2 ⟨v, g, member, found, rfl⟩⟩

theorem mem_declaredEntries_iff {keyType : KeyType} {valueType : FieldType} {members : List (String × Json)}
    {key : String} {w : Json} : (key, w) ∈ declaredEntries keyType valueType members ↔
      ∃ v, (key, v) ∈ members ∧ keyType.accepts key = true ∧ valueType.declaredPart v = w := by
  have filtered : declaredEntries keyType valueType members =
      (members.filter fun m => keyType.accepts m.1).map fun m => (m.1, valueType.declaredPart m.2) := by
    induction members with
    | nil => rfl
    | cons m rest ih =>
      obtain ⟨name, v⟩ := m
      rw [declaredEntries, ih, List.filter_cons]
      cases keyType.accepts name <;> rfl
  rw [filtered, List.mem_map]
  constructor
  · rintro ⟨⟨name, v⟩, member, ⟨⟩⟩
    obtain ⟨member, accepted⟩ := List.mem_filter.1 member
    exact ⟨v, member, accepted, rfl⟩
  · rintro ⟨v, member, accepted, rfl⟩
    exact ⟨(key, v), List.mem_filter.2 ⟨member, accepted⟩, rfl⟩

theorem declaredPart_of_leaf {t : FieldType} (leaf : t.isLeaf = true) (v : Json) : t.declaredPart v = v := by
  unfold declaredPart
  split
  case h_4 => rfl
  all_goals cases leaf

theorem declaredPart_of_not_admits {t : FieldType} {v : Json} (other : t.admits v = false) :
    t.declaredPart v = v := by
  unfold declaredPart
  split
  case h_4 => rfl
  all_goals cases other

end FieldType

namespace Violates

/-- What is not declared violates nothing. -/
theorem declaredPart_iff {t : FieldType} {required : Bool} {v : Json} :
    Violates t required (t.declaredPart v) ↔ Violates t required v := by
  induction t, v using Validator.induct generalizing required with
  | mismatch t v other => rw [FieldType.declaredPart_of_not_admits other]
  | list element items ih =>
    rw [FieldType.declaredPart, FieldType.declaredItems_eq_map, list_iff, list_iff]
    constructor
    · intro violated
      obtain ⟨w, stays, inside⟩ := violated
      obtain ⟨v, member, rfl⟩ := List.mem_map.1 stays
      have below := (ih v member).1 inside
      exact ⟨v, member, below⟩
    · intro violated
      obtain ⟨v, member, inside⟩ := violated
      have stays : element.declaredPart v ∈ items.map element.declaredPart := List.mem_map_of_mem member
      have below := (ih v member).2 inside
      exact ⟨element.declaredPart v, stays, below⟩
  | object model members ih =>
    rw [FieldType.declaredPart, object_iff, object_iff]
    refine or_congr ⟨?_, ?_⟩ ?_
    · intro violated
      obtain ⟨key, w, f, stays, found, inside⟩ := violated
      obtain ⟨v, g, member, foundFirst, rfl⟩ := FieldType.mem_declaredMembers_iff.1 stays
      rw [found] at foundFirst
      cases foundFirst
      have below := (ih key v f member found).1 inside
      exact ⟨key, v, f, member, found, below⟩
    · intro violated
      obtain ⟨key, v, f, member, found, inside⟩ := violated
      have stays := FieldType.mem_declaredMembers_iff.2 ⟨v, f, member, found, rfl⟩
      have below := (ih key v f member found).2 inside
      exact ⟨key, _, f, stays, found, below⟩
    · refine exists_congr fun f => and_congr_right fun declared => and_congr_right fun _ => not_congr ?_
      exact FieldType.exists_mem_declaredMembers_iff declared
  | dict keyType valueType members ih =>
    rw [FieldType.declaredPart, dict_iff, dict_iff]
    constructor
    · intro violated
      obtain ⟨key, w, stays, -, inside⟩ := violated
      obtain ⟨v, member, accepted, rfl⟩ := FieldType.mem_declaredEntries_iff.1 stays
      have below := (ih key v member).1 inside
      exact ⟨key, v, member, accepted, below⟩
    · intro violated
      obtain ⟨key, v, member, accepted, inside⟩ := violated
      have stays : (key, valueType.declaredPart v) ∈ FieldType.declaredEntries keyType valueType members :=
        FieldType.mem_declaredEntries_iff.2 ⟨v, member, accepted, rfl⟩
      have below := (ih key v member).2 inside
      exact ⟨key, _, stays, accepted, below⟩
  | leaf t v leaf => rw [FieldType.declaredPart_of_leaf leaf]

/-- Nothing is violated where nothing is required. -/
theorem not_of_optional {t : FieldType} {v : Json}
    (optional : ∀ model, t.Holds model → ∀ f ∈ model.fields, f.required = false) :
    ¬ Violates t false v := by
  induction t, v using Validator.induct with
  | mismatch t v other =>
    rw [kind_iff other]
    decide
  | list element items ih =>
    rw [list_iff]
    intro violated
    obtain ⟨v, member, inside⟩ := violated
    have optionalBelow := fun model held => optional model (.element held)
    exact ih v member optionalBelow inside
  | object model members ih =>
    rw [object_iff]
    intro violated
    rcases violated with ⟨key, v, f, member, found, inside⟩ | ⟨f, declared, needed, -⟩
    · have declared := Model.mem_of_find? found
      have optionalBelow := fun inner held => optional inner (.of_within declared held)
      rw [optional model (.here model) f declared] at inside
      exact ih key v f member found optionalBelow inside
    · rw [optional model (.here model) f declared] at needed
      cases needed
  | dict keyType valueType members ih =>
    rw [dict_iff]
    intro violated
    obtain ⟨key, v, member, -, inside⟩ := violated
    exact ih key v member (fun model held => optional model (.value held)) inside
  | leaf t v leaf admitted => exact not_of_leaf leaf admitted

end Violates

namespace FieldDescriptor

/-- A validation fails exactly if a required place of the value is violated. That does not depend on what the
store makes of numbers, nor on undeclared members and members under keys that are not accepted, and it does not
happen where nothing is required. -/
theorem validate_fails_iff (d : FieldDescriptor) (coercion : Coercion) (v : Json) :
    ((d.validate coercion v).Fails ↔ Violates d.type d.required v) ∧
    (∀ other : Coercion, (d.validate other v).Fails ↔ (d.validate coercion v).Fails) ∧
    ((d.validate coercion (d.type.declaredPart v)).Fails ↔ (d.validate coercion v).Fails) ∧
    (d.required = false → (∀ model, d.type.Holds model → ∀ f ∈ model.fields, f.required = false) →
      ∃ r, (d.validate coercion v).result = .ok r) := by
  have fails : ∀ (coercion : Coercion) (u : Json),
      (d.validate coercion u).Fails ↔ Violates d.type d.required u := by
    intro coercion u
    rw [Traced.Fails, d.validate_result]
    exact Validator.check_fails_iff coercion d.required d.fieldText
  refine ⟨fails coercion v, fun other => ?_, ?_, fun optional nothing => ?_⟩
  · rw [fails, fails]
  · rw [fails, fails, Violates.declaredPart_iff]
  · rw [← Traced.not_fails_iff, fails, optional]
    exact Violates.not_of_optional nothing

/-- A person with a name that has to be present. -/
def personSchema : ObjectSchema :=
  ⟨"Person", none, [{ Field.plain "name" FieldType.string with required := true }]⟩

/-- An optional item of an optional collection is refused for a required name in it; a list without required
places is not refused, whatever is in it. -/
theorem person_validate_fails_iff :
    let people := item "crew" "crewId" (.dict .string (.object personSchema)) Path.root
    let tags := item "crew" "tagId" (.list (some .string)) Path.root
    (people.validate .passThrough (.obj [("p1", .obj [("name", .num (.int 3))])])).Fails ∧
    tags.required = false ∧ (∀ model, tags.type.Holds model → ∀ f ∈ model.fields, f.required = false) ∧
    ∃ r, (tags.validate .passThrough (.arr [.null])).result = .ok r := by
  intro people tags
  have named : Violates (.object personSchema) false (.obj [("name", .num (.int 3))]) :=
    .member List.mem_cons_self rfl (.kind rfl)
  have violated : Violates people.type people.required (.obj [("p1", .obj [("name", .num (.int 3))])]) :=
    .entry List.mem_cons_self rfl named
  have nothing : ∀ model, tags.type.Holds model → ∀ f ∈ model.fields, f.required = false := by
    intro model held
    cases held with
    | element inside => cases inside
  refine ⟨(validate_fails_iff people .passThrough _).1.2 violated, rfl, nothing, ?_⟩
  exact (validate_fails_iff tags .passThrough _).2.2.2 rfl nothing

end FieldDescriptor

end DocSchema
