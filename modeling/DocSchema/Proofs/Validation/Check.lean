import DocSchema.Validation.Validator

/-!
# One layer of a check

A check looks at the kind of the value first. A value of another kind than the type asks for is a mismatch,
whatever is in it (`check_of_not_admits`); any other value is accepted, unless one of its entries is refused.
The entries of a list, of an object and of a keyed collection are checked by one loop (`checkEach`).
-/

namespace DocSchema

namespace FieldType

/-- The value is of the JSON kind that the type asks for; what is in the value does not matter. -/
def admits : FieldType → Json → Bool
  | .any, _ => true
  | .string, .str _ => true
  | .bool, .bool _ => true
  | .int, .num (.int _) => true
  | .float, .num _ => true
  | .map, .obj _ => true
  | .list _, .arr _ => true
  | .object _, .obj _ => true
  | .dict _ _, .obj _ => true
  | _, _ => false

/-- A check of the type looks at the kind of a value only, not at its parts. -/
def isLeaf : FieldType → Bool
  | .list (some _) | .object _ | .dict _ _ => false
  | _ => true

/-- The values that leaf types admit. -/
theorem leaf_cases {P : FieldType → Json → Prop}
    (any : ∀ v, P .any v)
    (string : ∀ s, P .string (.str s))
    (bool : ∀ b, P .bool (.bool b))
    (int : ∀ i, P .int (.num (.int i)))
    (float : ∀ n, P .float (.num n))
    (map : ∀ members, P .map (.obj members))
    (untyped : ∀ items, P (.list none) (.arr items)) {t : FieldType} {v : Json} (leaf : t.isLeaf = true)
    (admitted : t.admits v = true) : P t v := by
  unfold admits at admitted
  split at admitted
  · exact any v
  · exact string _
  · exact bool _
  · exact int _
  · exact float _
  · exact map _
  · next element items =>
    cases element with
    | none => exact untyped items
    | some element => cases leaf
  · cases leaf
  · cases leaf
  · cases admitted

/-- Coercion keeps the kind of a value, if it keeps numbers as numbers. -/
theorem admits_coerce {coercion : Coercion} (kinds : coercion.KeepsKinds) {t : FieldType} {v : Json}
    (admitted : t.admits v = true) : t.admits (v.coerce coercion) = true := by
  unfold admits at admitted
  split at admitted
  case h_4 i =>
    obtain ⟨j, same⟩ := kinds.int i
    rw [Json.coerce, same]
    rfl
  case h_5 n =>
    obtain ⟨m, same⟩ := kinds.number n
    rw [Json.coerce, same]
    rfl
  case h_10 => cases admitted
  all_goals rfl

end FieldType

namespace Validator

/-- A property of types and values, from what it is on the parts of a value that a check goes on to. -/
theorem induct {P : FieldType → Json → Prop}
    (leaf : ∀ t v, t.isLeaf = true → t.admits v = true → P t v)
    (list : ∀ element items, (∀ v ∈ items, P element v) → P (.list (some element)) (.arr items))
    (object : ∀ model members, (∀ key v f, (key, v) ∈ members → model.find? key = some f →
      P (f.type.within model) v) → P (.object model) (.obj members))
    (dict : ∀ keyType valueType members, (∀ key v, (key, v) ∈ members → P valueType v) →
      P (.dict keyType valueType) (.obj members))
    (mismatch : ∀ t v, t.admits v = false → P t v) (t : FieldType) (v : Json) : P t v := by
  induction v using Json.induct generalizing t with
  | arr items ih =>
    cases t with
    | any => exact leaf _ _ rfl rfl
    | list element =>
      cases element with
      | none => exact leaf _ _ rfl rfl
      | some element => exact list element items fun v member => ih v member element
    | _ => exact mismatch _ _ rfl
  | obj members ih =>
    cases t with
    | any => exact leaf _ _ rfl rfl
    | map => exact leaf _ _ rfl rfl
    | object model => exact object model members fun key v f member _ => ih key v member _
    | dict keyType valueType => exact dict keyType valueType members fun key v member => ih key v member _
    | _ => exact mismatch _ _ rfl
  | _ =>
    -- A value without parts is checked by its kind.
    cases admitted : t.admits _ with
    | false => exact mismatch _ _ admitted
    | true => exact leaf _ _ (by cases t <;> first | rfl | cases admitted) admitted

theorem check_of_not_admits {t : FieldType} {v : Json} (other : t.admits v = false) (coercion : Coercion)
    (required : Bool) (field : String) :
    check coercion t required field v = mismatch required (.ofType field t.name v.typeName) := by
  unfold check
  split
  case h_11 => rfl
  all_goals cases other

/-- A value of a leaf type is accepted whole. -/
theorem check_of_leaf {t : FieldType} {v : Json} (leaf : t.isLeaf = true) (admitted : t.admits v = true)
    (coercion : Coercion) (required : Bool) (field : String) :
    check coercion t required field v = pure ⟨some (v.coerce coercion), []⟩ := by
  refine FieldType.leaf_cases (P := fun t v => check coercion t required field v = pure ⟨some (v.coerce coercion), []⟩)
    ?_ ?_ ?_ ?_ ?_ ?_ ?_ leaf admitted
  all_goals
    intro part
    simp only [check, Json.coerce]

theorem mismatch_fails_iff {required : Bool} {m : Mismatch} : (mismatch required m).Fails ↔ required = true := by
  cases required with
  | false => simp [mismatch, drop]
  | true => exact iff_of_true ⟨_, rfl⟩ rfl

/-! ## Entries of a container -/

/-- Check entries one after the other, and keep those that are accepted. -/
def checkEach {α β : Type} (step : α → Checked Validation) (keep : α → Json → β) :
    List α → Checked (List β × List Mismatch)
  | [] => pure ([], [])
  | a :: rest => do
    let entry ← step a
    let (kept, warnings) ← checkEach step keep rest
    return ((entry.value.map (keep a)).toList ++ kept, entry.warnings ++ warnings)

/-- Check one member of an object. -/
def checkMember (coercion : Coercion) (model : ObjectSchema) (field : String) (member : String × Json) :
    Checked Validation :=
  match model.find? member.1 with
  | some f => check coercion (f.type.within model) f.required (join field member.1) member.2
  | none => drop (.unknown (join field member.1))

/-- Check one entry of a keyed collection. -/
def checkEntry (coercion : Coercion) (keyType : KeyType) (valueType : FieldType) (field : String)
    (entry : String × Json) : Checked Validation :=
  if keyType.accepts entry.1 then check coercion valueType false (join field entry.1) entry.2
  else drop (.ofKey (join field entry.1) keyType.name entry.1)

/-- Check one item of a list, given with its number. -/
def checkItem (coercion : Coercion) (element : FieldType) (field : String) (item : Json × Nat) :
    Checked Validation :=
  check coercion element false s!"{field}[{item.2}]" item.1

variable (coercion : Coercion)

theorem mem_items_iff {v : Json} {items : List Json} : v ∈ items ↔ ∃ item ∈ items.zipIdx, item.1 = v := by
  rw [← List.mem_map, List.zipIdx_map_fst]

theorem checkItems_eq (element : FieldType) (field : String) (index : Nat) (items : List Json) :
    checkItems coercion element field index items =
      checkEach (checkItem coercion element field) (fun _ w => w) (items.zipIdx index) := by
  induction items generalizing index with
  | nil => rfl
  | cons v rest ih =>
    rw [checkItems, ih, List.zipIdx_cons, checkEach]
    simp [checkItem]

theorem checkMembers_eq (model : ObjectSchema) (field : String) (members : List (String × Json)) :
    checkMembers coercion model field members =
      checkEach (checkMember coercion model field) (fun member w => (member.1, w)) members := by
  induction members with
  | nil => rfl
  | cons member rest ih =>
    obtain ⟨key, v⟩ := member
    rw [checkMembers, ih, checkEach, checkMember]
    cases model.find? key <;> rfl

theorem checkEntries_eq (keyType : KeyType) (valueType : FieldType) (field : String)
    (members : List (String × Json)) :
    checkEntries coercion keyType valueType field members =
      checkEach (checkEntry coercion keyType valueType field) (fun entry w => (entry.1, w)) members := by
  induction members with
  | nil => rfl
  | cons entry rest ih =>
    obtain ⟨key, v⟩ := entry
    rw [checkEntries, ih, checkEach, checkEntry]
    cases keyType.accepts key <;> rfl

/-! ## Containers -/

variable (required : Bool) (field : String)

theorem check_list (element : FieldType) (items : List Json) :
    check coercion (.list (some element)) required field (.arr items) = (do
      let (kept, warnings) ← checkEach (checkItem coercion element field) (fun _ w => w) items.zipIdx
      return ⟨some (.arr kept), warnings⟩) := by
  rw [check, checkItems_eq]

theorem check_object (model : ObjectSchema) (members : List (String × Json)) :
    check coercion (.object model) required field (.obj members) = (do
      let (kept, warnings) ←
        checkEach (checkMember coercion model field) (fun member w => (member.1, w)) members
      requirePresent field members model.fields
      return ⟨some (.obj kept), warnings⟩) := by
  rw [check, checkMembers_eq]

theorem check_dict (keyType : KeyType) (valueType : FieldType) (members : List (String × Json)) :
    check coercion (.dict keyType valueType) required field (.obj members) = (do
      let (kept, warnings) ←
        checkEach (checkEntry coercion keyType valueType field) (fun entry w => (entry.1, w)) members
      return ⟨some (.obj kept), warnings⟩) := by
  rw [check, checkEntries_eq]

theorem check_list_ok_iff {element : FieldType} {items : List Json} {r : Validation} :
    (check coercion (.list (some element)) required field (.arr items)).result = .ok r ↔
      ∃ kept, (checkEach (checkItem coercion element field) (fun _ w => w) items.zipIdx).result =
        .ok (kept, r.warnings) ∧ r.value = some (.arr kept) := by
  rw [check_list, Traced.bind_ok_iff]
  constructor
  · intro success
    obtain ⟨⟨kept, warnings⟩, looped, ⟨⟩⟩ := success
    exact ⟨kept, looped, rfl⟩
  · obtain ⟨value, warnings⟩ := r
    rintro ⟨kept, looped, rfl⟩
    exact ⟨_, looped, rfl⟩

theorem check_object_ok_iff {model : ObjectSchema} {members : List (String × Json)} {r : Validation} :
    (check coercion (.object model) required field (.obj members)).result = .ok r ↔
      ∃ kept, (checkEach (checkMember coercion model field) (fun member w => (member.1, w)) members).result =
        .ok (kept, r.warnings) ∧ (requirePresent field members model.fields).result = .ok () ∧
        r.value = some (.obj kept) := by
  rw [check_object, Traced.bind_ok_iff]
  constructor
  · intro success
    obtain ⟨⟨kept, warnings⟩, looped, success⟩ := success
    obtain ⟨_, present, ⟨⟩⟩ := Traced.bind_ok_iff.1 success
    exact ⟨kept, looped, present, rfl⟩
  · obtain ⟨value, warnings⟩ := r
    rintro ⟨kept, looped, present, rfl⟩
    exact ⟨_, looped, Traced.bind_ok_iff.2 ⟨(), present, rfl⟩⟩

theorem check_dict_ok_iff {keyType : KeyType} {valueType : FieldType} {members : List (String × Json)}
    {r : Validation} :
    (check coercion (.dict keyType valueType) required field (.obj members)).result = .ok r ↔
      ∃ kept, (checkEach (checkEntry coercion keyType valueType field) (fun entry w => (entry.1, w))
        members).result = .ok (kept, r.warnings) ∧ r.value = some (.obj kept) := by
  rw [check_dict, Traced.bind_ok_iff]
  constructor
  · intro success
    obtain ⟨⟨kept, warnings⟩, looped, ⟨⟩⟩ := success
    exact ⟨kept, looped, rfl⟩
  · obtain ⟨value, warnings⟩ := r
    rintro ⟨kept, looped, rfl⟩
    exact ⟨_, looped, rfl⟩

section Loop

variable {α β : Type} {step : α → Checked Validation} {keep : α → Json → β} {kept : List β}
  {warnings : List Mismatch}

theorem checkEach_cons_ok_iff {a : α} {rest : List α} :
    (checkEach step keep (a :: rest)).result = .ok (kept, warnings) ↔
      ∃ entry later, (step a).result = .ok entry ∧ (checkEach step keep rest).result = .ok later ∧
        kept = (entry.value.map (keep a)).toList ++ later.1 ∧ warnings = entry.warnings ++ later.2 := by
  rw [checkEach]
  simp only [Traced.bind_ok_iff]
  constructor
  · intro success
    obtain ⟨entry, checked, later, looped, ⟨⟩⟩ := success
    exact ⟨entry, later, checked, looped, rfl, rfl⟩
  · rintro ⟨entry, later, checked, looped, rfl, rfl⟩
    exact ⟨entry, checked, later, looped, rfl⟩

/-- A loop fails if the check of one of its entries does. -/
theorem checkEach_fails_iff {entries : List α} :
    (checkEach step keep entries).Fails ↔ ∃ a ∈ entries, (step a).Fails := by
  induction entries with
  | nil => simp [checkEach]
  | cons a rest ih =>
    rw [checkEach]
    simp only [List.mem_cons, exists_eq_or_imp, ← ih]
    exact Traced.bind_fails_iff_or fun entry => Traced.bind_fails_iff_left fun later => by simp

end Loop

/-- An object is refused for a required field that it lacks. -/
theorem requirePresent_fails_iff {members : List (String × Json)} {fields : List FieldDecl} :
    (requirePresent field members fields).Fails ↔
      ∃ f ∈ fields, f.required = true ∧ ¬ ∃ v, (f.name, v) ∈ members := by
  induction fields with
  | nil => simp [requirePresent]
  | cons f rest ih =>
    rw [requirePresent]
    simp only [List.mem_cons, exists_eq_or_imp]
    split
    · next lacks =>
      refine iff_of_true ⟨_, rfl⟩ (.inl ?_)
      rw [← Assoc.contains_iff]
      simpa using lacks
    · next present =>
      rw [ih, or_iff_right]
      rw [← Assoc.contains_iff]
      simpa using present

theorem requirePresent_ok_iff {members : List (String × Json)} {fields : List FieldDecl} :
    (requirePresent field members fields).result = .ok () ↔
      ∀ f ∈ fields, f.required = true → ∃ v, (f.name, v) ∈ members := by
  have passes : (requirePresent field members fields).result = .ok () ↔
      ¬ (requirePresent field members fields).Fails := by
    rw [Traced.not_fails_iff]
    exact ⟨fun success => ⟨(), success⟩, fun ⟨_, success⟩ => success⟩
  rw [passes, requirePresent_fails_iff]
  simp

theorem check_list_fails_iff {element : FieldType} {items : List Json} :
    (check coercion (.list (some element)) required field (.arr items)).Fails ↔
      ∃ item ∈ items.zipIdx, (checkItem coercion element field item).Fails := by
  rw [check_list, Traced.bind_fails_iff_left fun _ => by simp, checkEach_fails_iff]

theorem check_object_fails_iff {model : ObjectSchema} {members : List (String × Json)} :
    (check coercion (.object model) required field (.obj members)).Fails ↔
      (∃ member ∈ members, (checkMember coercion model field member).Fails) ∨
        ∃ f ∈ model.fields, f.required = true ∧ ¬ ∃ v, (f.name, v) ∈ members := by
  rw [check_object, Traced.bind_fails_iff_or fun _ => Traced.bind_fails_iff_left fun _ => by simp,
    checkEach_fails_iff, requirePresent_fails_iff]

theorem check_dict_fails_iff {keyType : KeyType} {valueType : FieldType} {members : List (String × Json)} :
    (check coercion (.dict keyType valueType) required field (.obj members)).Fails ↔
      ∃ entry ∈ members, (checkEntry coercion keyType valueType field entry).Fails := by
  rw [check_dict, Traced.bind_fails_iff_left fun _ => by simp, checkEach_fails_iff]

/-- A value of the right kind is accepted or refused, but not dropped. -/
theorem accepted_of_admits {t : FieldType} {v : Json} {r : Validation} (admitted : t.admits v = true)
    (success : (check coercion t required field v).result = .ok r) : ∃ w, r.value = some w := by
  induction t, v using induct with
  | mismatch t v other =>
    rw [other] at admitted
    cases admitted
  | list element items =>
    obtain ⟨kept, -, value⟩ := (check_list_ok_iff coercion required field).1 success
    exact ⟨_, value⟩
  | object model members =>
    obtain ⟨kept, -, -, value⟩ := (check_object_ok_iff coercion required field).1 success
    exact ⟨_, value⟩
  | dict keyType valueType members =>
    obtain ⟨kept, -, value⟩ := (check_dict_ok_iff coercion required field).1 success
    exact ⟨_, value⟩
  | leaf t v leaf =>
    rw [check_of_leaf leaf admitted] at success
    cases success
    exact ⟨_, rfl⟩

/-- A check drops a value only if it is of another kind than the type asks for and is not required, and then
it reports nothing else. -/
theorem check_dropped {t : FieldType} {v : Json} {warnings : List Mismatch}
    (dropped : (check coercion t required field v).result = .ok ⟨none, warnings⟩) :
    t.admits v = false ∧ required = false ∧ warnings = [.ofType field t.name v.typeName] := by
  cases admitted : t.admits v with
  | true =>
    obtain ⟨_, accepted⟩ := accepted_of_admits coercion required field admitted dropped
    cases accepted
  | false =>
    rw [check_of_not_admits admitted] at dropped
    unfold mismatch at dropped
    split at dropped
    · cases dropped
    · next optional =>
      cases dropped
      exact ⟨rfl, by simpa using optional, rfl⟩

end Validator

namespace FieldDescriptor

/-- A validation ends as the check of its value does. -/
theorem validate_result (d : FieldDescriptor) (coercion : Coercion) (v : Json) :
    (d.validate coercion v).result = (Validator.check coercion d.type d.required d.fieldText v).result := by
  unfold validate
  obtain ⟨notes, _ | r⟩ := Validator.check coercion d.type d.required d.fieldText v
  · rfl
  · rw [Traced.ok_bind]
    cases r.accepted <;> rfl

end FieldDescriptor

end DocSchema
