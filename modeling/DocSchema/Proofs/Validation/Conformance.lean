import DocSchema.Proofs.Validation.Check

/-!
# Conformance

A value conforms to a type if nothing in it is undeclared, of another type or missing. A check accepts a value
without a warning exactly if the value conforms, and then keeps all of it.
-/

namespace DocSchema

/-- The value is of the type, with all of its parts. A self reference that is no item of a collection has no
values. -/
inductive Conforms : FieldType → Json → Prop
  | any (v : Json) : Conforms .any v
  | string (s : String) : Conforms .string (.str s)
  | bool (b : Bool) : Conforms .bool (.bool b)
  | int (i : Int) : Conforms .int (.num (.int i))
  | float (n : Number) : Conforms .float (.num n)
  | map (members : List (String × Json)) : Conforms .map (.obj members)
  | untyped (items : List Json) : Conforms (.list none) (.arr items)
  | list {element : FieldType} {items : List Json} (typed : ∀ v ∈ items, Conforms element v) :
      Conforms (.list (some element)) (.arr items)
  | dict {keyType : KeyType} {valueType : FieldType} {members : List (String × Json)}
      (keys : ∀ key v, (key, v) ∈ members → keyType.accepts key = true)
      (typed : ∀ key v, (key, v) ∈ members → Conforms valueType v) :
      Conforms (.dict keyType valueType) (.obj members)
  | object {model : ObjectSchema} {members : List (String × Json)}
      (declared : ∀ key v, (key, v) ∈ members → ∃ f, model.find? key = some f)
      (typed : ∀ key v f, (key, v) ∈ members → model.find? key = some f →
        Conforms (f.type.within model) v)
      (present : ∀ f ∈ model.fields, f.required = true → ∃ v, (f.name, v) ∈ members) :
      Conforms (.object model) (.obj members)

namespace Conforms

variable {t : FieldType} {v : Json}

theorem admits (conforms : Conforms t v) : t.admits v = true := by
  cases conforms <;> rfl

theorem of_leaf (leaf : t.isLeaf = true) (admitted : t.admits v = true) : Conforms t v :=
  FieldType.leaf_cases any string bool int float map untyped leaf admitted

end Conforms

namespace Validator

section Loop

variable {α β : Type} {step : α → Checked Validation} {keep : α → Json → β}

/-- A loop drops nothing exactly if no entry of it is dropped, and none loses anything. -/
theorem checkEach_lossless_iff {fits : α → Prop} {whole : α → Json} {entries : List α}
    (exact : ∀ a ∈ entries, ∀ w, (step a).result = .ok ⟨some w, []⟩ ↔ fits a ∧ w = whole a)
    (noisy : ∀ a ∈ entries, (step a).result ≠ .ok ⟨none, []⟩) {kept : List β} :
    (checkEach step keep entries).result = .ok (kept, []) ↔
      (∀ a ∈ entries, fits a) ∧ kept = entries.map fun a => keep a (whole a) := by
  induction entries generalizing kept with
  | nil => simp [checkEach, eq_comm]
  | cons a rest ih =>
    have first := exact a List.mem_cons_self
    have loud := noisy a List.mem_cons_self
    have ih := @ih (fun b member => exact b (List.mem_cons_of_mem a member))
      (fun b member => noisy b (List.mem_cons_of_mem a member))
    rw [checkEach_cons_ok_iff, List.forall_mem_cons, List.map_cons]
    constructor
    · intro success
      obtain ⟨⟨value, warnings⟩, ⟨later, laterWarnings⟩, checked, looped, rfl, silent⟩ := success
      obtain ⟨rfl, rfl⟩ : warnings = [] ∧ laterWarnings = [] := by simpa using silent.symm
      cases value with
      | none => exact absurd checked loud
      | some w =>
        obtain ⟨fitsHere, rfl⟩ := (first w).1 checked
        obtain ⟨fitsLater, rfl⟩ := ih.1 looped
        exact ⟨⟨fitsHere, fitsLater⟩, rfl⟩
    · intro lossless
      obtain ⟨⟨fitsHere, fitsLater⟩, rfl⟩ := lossless
      exact ⟨⟨some (whole a), []⟩, ⟨_, []⟩, (first _).2 ⟨fitsHere, rfl⟩, ih.2 ⟨fitsLater, rfl⟩, rfl, rfl⟩

end Loop

variable (coercion : Coercion) (required : Bool) (field : String)

theorem check_never_silent (t : FieldType) (v : Json) :
    (check coercion t required field v).result ≠ .ok ⟨none, []⟩ := by
  intro dropped
  obtain ⟨-, -, warned⟩ := check_dropped coercion required field dropped
  cases warned

theorem checkEntry_never_silent (keyType : KeyType) (valueType : FieldType) (entry : String × Json) :
    (checkEntry coercion keyType valueType field entry).result ≠ .ok ⟨none, []⟩ := by
  unfold checkEntry
  split
  · exact check_never_silent coercion false _ valueType entry.2
  · nofun

theorem checkMember_never_silent (model : ObjectSchema) (member : String × Json) :
    (checkMember coercion model field member).result ≠ .ok ⟨none, []⟩ := by
  unfold checkMember
  split
  · next f _ => exact check_never_silent coercion f.required _ (f.type.within model) member.2
  · nofun

variable {coercion}

/-- The check of the value accepts it without a warning exactly if the value conforms, and then keeps all of it. -/
def LosslessIff (coercion : Coercion) (t : FieldType) (v : Json) : Prop :=
  ∀ required field w, (check coercion t required field v).result = .ok ⟨some w, []⟩ ↔
    Conforms t v ∧ w = v.coerce coercion

/-- What the check of one entry comes to, when the check of its value is known. -/
theorem checkEntry_lossless_iff {keyType : KeyType} {valueType : FieldType} {key : String} {v : Json}
    (value : LosslessIff coercion valueType v) (w : Json) :
    (checkEntry coercion keyType valueType field (key, v)).result = .ok ⟨some w, []⟩ ↔
      (keyType.accepts key = true ∧ Conforms valueType v) ∧ w = v.coerce coercion := by
  unfold checkEntry
  by_cases accepted : keyType.accepts key = true
  · rw [if_pos accepted, value, and_iff_right accepted]
  · rw [if_neg accepted]
    exact iff_of_false nofun fun fits => accepted fits.1.1

/-- What the check of one member comes to, when the check of its value is known. -/
theorem checkMember_lossless_iff {model : ObjectSchema} {key : String} {v : Json}
    (value : ∀ f, model.find? key = some f → LosslessIff coercion (f.type.within model) v) (w : Json) :
    (checkMember coercion model field (key, v)).result = .ok ⟨some w, []⟩ ↔
      (∃ f, model.find? key = some f ∧ Conforms (f.type.within model) v) ∧ w = v.coerce coercion := by
  unfold checkMember
  cases found : model.find? key with
  | none => exact iff_of_false nofun nofun
  | some f => simp [value f found _ _ w]

theorem losslessIff_list {element : FieldType} {items : List Json}
    (each : ∀ v ∈ items, LosslessIff coercion element v) :
    LosslessIff coercion (.list (some element)) (.arr items) := by
  intro required field w
  have loop := @checkEach_lossless_iff _ _ (checkItem coercion element field) (fun _ w => w)
    (fun item => Conforms element item.1) (fun item => item.1.coerce coercion) items.zipIdx
    (fun item member => each item.1 (List.fst_mem_of_mem_zipIdx member) false _)
    (fun item _ => check_never_silent coercion false _ element item.1)
  have coerced : items.zipIdx.map (fun item => item.1.coerce coercion) = Json.coerceItems coercion items :=
    calc items.zipIdx.map (fun item => item.1.coerce coercion)
        = (items.zipIdx.map Prod.fst).map (Json.coerce coercion) := by rw [List.map_map]; rfl
      _ = Json.coerceItems coercion items := by rw [List.zipIdx_map_fst, Json.coerceItems_eq_map]
  rw [coerced] at loop
  rw [check_list_ok_iff, Json.coerce]
  constructor
  · intro success
    obtain ⟨kept, looped, ⟨⟩⟩ := success
    obtain ⟨typed, rfl⟩ := loop.1 looped
    refine ⟨.list fun v member => ?_, rfl⟩
    obtain ⟨item, inside, rfl⟩ := mem_items_iff.1 member
    exact typed item inside
  · intro lossless
    obtain ⟨conforms, rfl⟩ := lossless
    cases conforms with
    | list typed =>
      exact ⟨_, loop.2 ⟨fun item member => typed item.1 (List.fst_mem_of_mem_zipIdx member), rfl⟩, rfl⟩

theorem losslessIff_object {model : ObjectSchema} {members : List (String × Json)}
    (each : ∀ key v f, (key, v) ∈ members → model.find? key = some f →
      LosslessIff coercion (f.type.within model) v) :
    LosslessIff coercion (.object model) (.obj members) := by
  intro required field w
  have loop := @checkEach_lossless_iff _ _ (checkMember coercion model field) (fun member w => (member.1, w))
    (fun member => ∃ f, model.find? member.1 = some f ∧ Conforms (f.type.within model) member.2)
    (fun member => member.2.coerce coercion) members
    (fun member inside =>
      checkMember_lossless_iff field fun f found => each member.1 member.2 f inside found)
    (fun member _ => checkMember_never_silent coercion field model member)
  rw [← Json.coerceMembers_eq_map] at loop
  rw [check_object_ok_iff, Json.coerce]
  constructor
  · intro success
    obtain ⟨kept, looped, complete, ⟨⟩⟩ := success
    obtain ⟨fits, rfl⟩ := loop.1 looped
    refine ⟨.object (fun key v member => ?_) (fun key v f member found => ?_) ?_, rfl⟩
    · obtain ⟨f, found, -⟩ := fits _ member
      exact ⟨f, found⟩
    · obtain ⟨g, foundFirst, conforms⟩ := fits _ member
      rw [found] at foundFirst
      cases foundFirst
      exact conforms
    · exact (requirePresent_ok_iff field).1 complete
  · intro lossless
    obtain ⟨conforms, rfl⟩ := lossless
    cases conforms with
    | object declared typed present =>
      refine ⟨_, loop.2 ⟨fun member inside => ?_, rfl⟩, (requirePresent_ok_iff field).2 present, rfl⟩
      obtain ⟨f, found⟩ := declared _ _ inside
      exact ⟨f, found, typed _ _ f inside found⟩

theorem losslessIff_dict {keyType : KeyType} {valueType : FieldType} {members : List (String × Json)}
    (each : ∀ key v, (key, v) ∈ members → LosslessIff coercion valueType v) :
    LosslessIff coercion (.dict keyType valueType) (.obj members) := by
  intro required field w
  have loop := @checkEach_lossless_iff _ _ (checkEntry coercion keyType valueType field)
    (fun entry w => (entry.1, w))
    (fun entry => keyType.accepts entry.1 = true ∧ Conforms valueType entry.2)
    (fun entry => entry.2.coerce coercion) members
    (fun entry inside => checkEntry_lossless_iff field (each entry.1 entry.2 inside))
    (fun entry _ => checkEntry_never_silent coercion field keyType valueType entry)
  rw [← Json.coerceMembers_eq_map] at loop
  rw [check_dict_ok_iff, Json.coerce]
  constructor
  · intro success
    obtain ⟨kept, looped, ⟨⟩⟩ := success
    obtain ⟨fits, rfl⟩ := loop.1 looped
    exact ⟨.dict (fun key v member => (fits (key, v) member).1) fun key v member => (fits (key, v) member).2,
      rfl⟩
  · intro lossless
    obtain ⟨conforms, rfl⟩ := lossless
    cases conforms with
    | dict keys typed =>
      exact ⟨_, loop.2 ⟨fun entry member => ⟨keys _ _ member, typed _ _ member⟩, rfl⟩, rfl⟩

/-- A check accepts a value without a warning exactly if the value conforms, and then keeps all of it. -/
theorem check_lossless_iff (coercion : Coercion) (required : Bool) (field : String) (t : FieldType) (v w : Json) :
    (check coercion t required field v).result = .ok ⟨some w, []⟩ ↔ Conforms t v ∧ w = v.coerce coercion := by
  suffices LosslessIff coercion t v from this required field w
  clear required field w
  induction t, v using induct with
  | list _ _ ih => exact losslessIff_list ih
  | object _ _ ih => exact losslessIff_object ih
  | dict _ _ _ ih => exact losslessIff_dict ih
  | leaf t v leaf admitted =>
    intro required field w
    rw [check_of_leaf leaf admitted, and_iff_right (Conforms.of_leaf leaf admitted)]
    simp [eq_comm]
  | mismatch t v other =>
    intro required field w
    refine iff_of_false ?_ fun ⟨conforms, _⟩ => ?_
    · rw [check_of_not_admits other]
      unfold mismatch
      split <;> nofun
    · rw [conforms.admits] at other
      cases other

end Validator

namespace FieldDescriptor

/-- A value is accepted without a warning exactly if it conforms to the type of the descriptor, and then all of
it is kept, with its numbers as the store keeps them. -/
theorem validate_lossless_iff (d : FieldDescriptor) (coercion : Coercion) (v : Json) :
    (∀ w, (d.validate coercion v).result = .ok ⟨some w, []⟩ ↔ Conforms d.type v ∧ w = v.coerce coercion) ∧
      v.coerce .passThrough = v := by
  refine ⟨fun w => ?_, Json.coerce_passThrough v⟩
  rw [d.validate_result]
  exact Validator.check_lossless_iff coercion d.required d.fieldText d.type v w

end FieldDescriptor

end DocSchema
