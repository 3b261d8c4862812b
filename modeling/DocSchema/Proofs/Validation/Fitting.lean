import DocSchema.Proofs.Schema.Typing
import DocSchema.Proofs.Validation.Pruning

/-!
# Values that fit a type

A value fits a type if all that is in it is declared and of its type; required fields may be missing. What a
check keeps fits, and a check of a value that fits drops nothing: it accepts the whole value, or refuses it for a
field that is missing.
-/

namespace DocSchema

namespace FieldType

/-- The type of the member under `key`, if a value of the type may have one. -/
def entryType? : FieldType → String → Option FieldType
  | .object model, key => (model.find? key).map fun f => f.typeIn model
  | .dict keyType valueType, key => if keyType.accepts key then some valueType else none
  | _, _ => none

end FieldType

/-- All that is in the value is declared, and of the type that is declared for it. -/
inductive Fits : FieldType → Json → Prop
  | any (v : Json) : Fits .any v
  | string (s : String) : Fits .string (.str s)
  | bool (b : Bool) : Fits .bool (.bool b)
  | int (i : Int) : Fits .int (.num (.int i))
  | float (n : Number) : Fits .float (.num n)
  | map (members : List (String × Json)) : Fits .map (.obj members)
  | untyped (items : List Json) : Fits (.list none) (.arr items)
  | list {element : FieldType} {items : List Json} (typed : ∀ v ∈ items, Fits element v) :
      Fits (.list (some element)) (.arr items)
  | members {t : FieldType} {members : List (String × Json)} (container : t.isContainer = true)
      (declared : ∀ key v, (key, v) ∈ members → ∃ u, t.entryType? key = some u)
      (typed : ∀ key v u, (key, v) ∈ members → t.entryType? key = some u → Fits u v) : Fits t (.obj members)

namespace Fits

variable {t u : FieldType} {members : List (String × Json)}

theorem of_leaf {v : Json} (leaf : t.isLeaf = true) (admitted : t.admits v = true) : Fits t v :=
  FieldType.leaf_cases any string bool int float map untyped leaf admitted

/-- What is in a container that fits. -/
theorem entry (fits : Fits t (.obj members)) (container : t.isContainer = true) {key : String} {v : Json}
    (member : (key, v) ∈ members) : ∃ u, t.entryType? key = some u ∧ Fits u v := by
  cases fits with
  | any => cases container
  | map => cases container
  | members _ declared typed =>
    obtain ⟨u, found⟩ := declared key v member
    exact ⟨u, found, typed key v u member found⟩

theorem of_entries (container : t.isContainer = true)
    (each : ∀ key v, (key, v) ∈ members → ∃ u, t.entryType? key = some u ∧ Fits u v) :
    Fits t (.obj members) := by
  refine .members container (fun key v member => ?_) fun key v u member found => ?_
  · obtain ⟨u, found, -⟩ := each key v member
    exact ⟨u, found⟩
  · obtain ⟨w, foundFirst, fits⟩ := each key v member
    rw [found] at foundFirst
    cases foundFirst
    exact fits

/-- An empty container fits. -/
theorem nil (container : t.isContainer = true) : Fits t (.obj []) :=
  of_entries container nofun

theorem insert (fits : Fits t (.obj members)) (container : t.isContainer = true) {key : String} {v : Json}
    (found : t.entryType? key = some u) (value : Fits u v) : Fits t (.obj (Assoc.insert key v members)) := by
  refine of_entries container fun other w member => ?_
  rcases Assoc.mem_insert member with same | member
  · cases same
    exact ⟨u, found, value⟩
  · exact fits.entry container member

end Fits

namespace Validator

/-- A check of a value accepts all of it, or refuses it for a field that is missing. -/
def Spares (x : Checked Validation) : Prop :=
  (∃ w, x.result = .ok ⟨some w, []⟩) ∨ ∃ m, x.result = .error (.missing m)

/-- A loop drops nothing if the check of no entry does. -/
theorem checkEach_spares {α β : Type} {step : α → Checked Validation} {keep : α → Json → β} {entries : List α}
    (each : ∀ a ∈ entries, Spares (step a)) :
    (∃ kept, (checkEach step keep entries).result = .ok (kept, [])) ∨
      ∃ m, (checkEach step keep entries).result = .error (.missing m) := by
  induction entries with
  | nil => exact .inl ⟨[], rfl⟩
  | cons a rest ih =>
    rcases each a List.mem_cons_self with ⟨w, accepted⟩ | ⟨m, refused⟩
    · rcases ih fun b member => each b (List.mem_cons_of_mem a member) with ⟨kept, looped⟩ | ⟨m, refused⟩
      · exact .inl ⟨_, checkEach_cons_ok_iff.2 ⟨_, _, accepted, looped, rfl, rfl⟩⟩
      · exact .inr ⟨m, Traced.bind_error_iff.2 (.inr ⟨_, accepted, Traced.bind_error_iff.2 (.inl refused)⟩)⟩
    · exact .inr ⟨m, Traced.bind_error_iff.2 (.inl refused)⟩

theorem requirePresent_spares (field : String) (members : List (String × Json)) (fields : List FieldDecl) :
    (requirePresent field members fields).result = .ok () ∨
      ∃ m, (requirePresent field members fields).result = .error (.missing m) := by
  induction fields with
  | nil => exact .inl rfl
  | cons f rest ih =>
    rw [requirePresent]
    split
    · exact .inr ⟨_, rfl⟩
    · exact ih

/-- A check of a value that fits drops nothing. -/
theorem check_spares {coercion : Coercion} {t : FieldType} {v : Json} (fits : Fits t v) (required : Bool)
    (field : String) : Spares (check coercion t required field v) := by
  induction fits generalizing required field with
  | list typed ih =>
    rw [check_list]
    have each : ∀ item ∈ List.zipIdx _, Spares (checkItem coercion _ field item) :=
      fun item member => ih item.1 (List.fst_mem_of_mem_zipIdx member) false _
    rcases checkEach_spares each with ⟨kept, looped⟩ | ⟨m, refused⟩
    · exact .inl ⟨_, Traced.bind_ok_iff.2 ⟨_, looped, rfl⟩⟩
    · exact .inr ⟨m, Traced.bind_error_iff.2 (.inl refused)⟩
  | @members t members container declared typed ih =>
    cases t with
    | object model =>
      have each : ∀ member ∈ members, Spares (checkMember coercion model field member) := by
        intro member inside
        obtain ⟨key, v⟩ := member
        obtain ⟨u, found⟩ := declared key v inside
        obtain ⟨f, declaration, rfl⟩ := Option.map_eq_some_iff.1 found
        unfold checkMember
        rw [declaration]
        exact ih key v _ inside found f.required _
      rw [check_object]
      rcases checkEach_spares each with ⟨kept, looped⟩ | ⟨m, refused⟩
      · rcases requirePresent_spares field members model.fields with complete | ⟨m, refused⟩
        · exact .inl ⟨_, Traced.bind_ok_iff.2 ⟨_, looped, Traced.bind_ok_iff.2 ⟨(), complete, rfl⟩⟩⟩
        · exact .inr ⟨m, Traced.bind_error_iff.2 (.inr ⟨_, looped, Traced.bind_error_iff.2 (.inl refused)⟩)⟩
      · exact .inr ⟨m, Traced.bind_error_iff.2 (.inl refused)⟩
    | dict keyType valueType =>
      have each : ∀ entry ∈ members, Spares (checkEntry coercion keyType valueType field entry) := by
        intro entry inside
        obtain ⟨key, v⟩ := entry
        obtain ⟨u, found⟩ := declared key v inside
        obtain ⟨accepted, same⟩ := Option.ite_none_right_eq_some.1 found
        cases same
        unfold checkEntry
        rw [if_pos accepted]
        exact ih key v _ inside found false _
      rw [check_dict]
      rcases checkEach_spares each with ⟨kept, looped⟩ | ⟨m, refused⟩
      · exact .inl ⟨_, Traced.bind_ok_iff.2 ⟨_, looped, rfl⟩⟩
      · exact .inr ⟨m, Traced.bind_error_iff.2 (.inl refused)⟩
    | _ => cases container
  | _ =>
    unfold check
    exact .inl ⟨_, rfl⟩

/-- What a check keeps fits, if numbers are kept as numbers. -/
theorem fits_of_check {coercion : Coercion} (kinds : coercion.KeepsKinds) {t : FieldType} {required : Bool}
    {field : String} {v w : Json} {ws : List Mismatch}
    (success : (check coercion t required field v).result = .ok ⟨some w, ws⟩) : Fits t w := by
  induction t, v using induct generalizing required field w ws with
  | mismatch t v other =>
    rw [check_of_not_admits other] at success
    unfold mismatch at success
    split at success <;> cases success
  | list element items ih =>
    obtain ⟨kept, looped, ⟨⟩⟩ := (check_list_ok_iff _ _ _).1 success
    refine .list fun w member => ?_
    obtain ⟨item, inside, w, ws, checked, rfl⟩ := exists_of_mem_kept looped member
    exact ih item.1 (List.fst_mem_of_mem_zipIdx inside) checked
  | object model members ih =>
    obtain ⟨kept, looped, -, ⟨⟩⟩ := (check_object_ok_iff _ _ _).1 success
    refine .of_entries rfl fun key w member => ?_
    obtain ⟨⟨key, v⟩, inside, w, ws, checked, ⟨⟩⟩ := exists_of_mem_kept looped member
    obtain ⟨f, found, checked⟩ := checkMember_accepted checked
    exact ⟨f.typeIn model, congrArg (Option.map _) found, ih key v f inside found checked⟩
  | dict keyType valueType members ih =>
    obtain ⟨kept, looped, ⟨⟩⟩ := (check_dict_ok_iff _ _ _).1 success
    refine .of_entries rfl fun key w member => ?_
    obtain ⟨⟨key, v⟩, inside, w, ws, checked, ⟨⟩⟩ := exists_of_mem_kept looped member
    obtain ⟨accepted, checked⟩ := checkEntry_accepted checked
    exact ⟨valueType, if_pos accepted, ih key v inside checked⟩
  | leaf t v leaf admitted =>
    rw [check_of_leaf leaf admitted] at success
    cases success
    exact .of_leaf leaf (FieldType.admits_coerce kinds admitted)

end Validator

end DocSchema
