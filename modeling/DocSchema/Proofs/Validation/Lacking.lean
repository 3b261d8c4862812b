import DocSchema.Proofs.Validation.Fitting
import DocSchema.Proofs.Validation.Positions
import DocSchema.Proofs.Validation.Violation

/-!
# Objects that lack required fields

Chains of keys lead through the objects of a value. A value that violates its type either has an object on one of
these ways that lacks a required field, or is violated off the ways: at a place where none of them goes on, or by a
value of another kind.
-/

namespace DocSchema

/-- Chains of keys, each leading down from a value. -/
abbrev Ways := List String → Prop

namespace Ways

/-- Where the ways go on below a key. -/
def below (ways : Ways) (key : String) : Ways :=
  fun rest => ways (key :: rest)

/-- Some way leads further down. -/
def GoesOn (ways : Ways) : Prop :=
  ∃ key rest, ways (key :: rest)

end Ways

/-- An object without one of the fields that its model requires. -/
inductive Lacks : FieldType → Json → Prop
  | field {model : ObjectSchema} {members : Json.Members} {f : FieldDecl} (declared : f ∈ model.fields)
      (needed : f.required = true) (absent : ¬ ∃ v, (f.name, v) ∈ members) :
      Lacks (.object model) (.obj members)

/-- An object on one of the ways, above the end of the way, lacks a required field. -/
inductive LacksOn : Ways → FieldType → Json → Prop
  | here {ways : Ways} {t : FieldType} {v : Json} (onward : ways.GoesOn) (lacks : Lacks t v) : LacksOn ways t v
  | entry {ways : Ways} {t u : FieldType} {needed : Bool} {members : Json.Members} {key : String} {v : Json}
      (member : (key, v) ∈ members) (asked : t.asks? key = some (u, needed))
      (inside : LacksOn (ways.below key) u v) : LacksOn ways t (.obj members)

/-- A required place holds a value of another kind than declared, or it holds nothing and is not a field of an
object on one of the ways. -/
inductive ViolatesOff : Ways → FieldType → Bool → Json → Prop
  | kind {ways : Ways} {t : FieldType} {v : Json} (other : t.admits v = false) : ViolatesOff ways t true v
  | item {ways : Ways} {element : FieldType} {required : Bool} {items : List Json} {v : Json}
      (member : v ∈ items) (inside : Violates element false v) :
      ViolatesOff ways (.list (some element)) required (.arr items)
  | entry {ways : Ways} {t u : FieldType} {required needed : Bool} {members : Json.Members} {key : String}
      {v : Json} (member : (key, v) ∈ members) (asked : t.asks? key = some (u, needed))
      (inside : ViolatesOff (ways.below key) u needed v) : ViolatesOff ways t required (.obj members)
  | absent {ways : Ways} {t : FieldType} {required : Bool} {v : Json} (stops : ¬ ways.GoesOn)
      (lacks : Lacks t v) : ViolatesOff ways t required v

section Split

variable {ways : Ways} {t u : FieldType} {required needed : Bool} {v : Json}

theorem Lacks.violates (lacks : Lacks t v) (required : Bool) : Violates t required v := by
  cases lacks with
  | field declared needed absent => exact .absent declared needed absent

/-- What a member violates, the object or the collection violates. -/
theorem Violates.of_entry {members : Json.Members} {key : String} (member : (key, v) ∈ members)
    (asked : t.asks? key = some (u, needed)) (inside : Violates u needed v) :
    Violates t required (.obj members) := by
  cases t with
  | object model =>
    obtain ⟨f, declared, ⟨⟩⟩ := Option.map_eq_some_iff.1 asked
    exact .member member declared inside
  | dict keyType valueType =>
    obtain ⟨accepted, ⟨⟩⟩ := Option.ite_none_right_eq_some.1 asked
    exact .entry member accepted inside
  | _ => cases asked

theorem LacksOn.violates (lacks : LacksOn ways t v) (required : Bool) : Violates t required v := by
  induction lacks generalizing required with
  | here _ lacks => exact lacks.violates required
  | entry member asked _ ih => exact .of_entry member asked (ih _)

theorem ViolatesOff.violates (violated : ViolatesOff ways t required v) : Violates t required v := by
  induction violated with
  | kind other => exact .kind other
  | item member inside => exact .item member inside
  | entry member asked _ ih => exact .of_entry member asked ih
  | absent _ lacks => exact lacks.violates _

/-- A violation is one off the ways, or an object on one of them lacks a field. -/
theorem Violates.off_or_lacksOn (violated : Violates t required v) (ways : Ways) :
    ViolatesOff ways t required v ∨ LacksOn ways t v := by
  induction violated generalizing ways with
  | kind other => exact .inl (.kind other)
  | item member inside => exact .inl (.item member inside)
  | @entry keyType valueType required members key v member accepted _ ih =>
    have asked : (FieldType.dict keyType valueType).asks? key = some (valueType, false) := if_pos accepted
    rcases ih (ways.below key) with inside | inside
    · exact .inl (.entry member asked inside)
    · exact .inr (.entry member asked inside)
  | @member model required members key v f member declared _ ih =>
    have asked : (FieldType.object model).asks? key = some (f.type.within model, f.required) :=
      congrArg (Option.map _) declared
    rcases ih (ways.below key) with inside | inside
    · exact .inl (.entry member asked inside)
    · exact .inr (.entry member asked inside)
  | absent declared needed lacks =>
    by_cases onward : ways.GoesOn
    · exact .inr (.here onward (.field declared needed lacks))
    · exact .inl (.absent onward (.field declared needed lacks))

/-- Where nothing is violated off the ways, a value violates its type exactly if an object on one of them lacks a
field. -/
theorem violates_iff_lacksOn (sound : ¬ ViolatesOff ways t required v) :
    Violates t required v ↔ LacksOn ways t v :=
  ⟨fun violated => (violated.off_or_lacksOn ways).resolve_left sound, fun lacks => lacks.violates required⟩

end Split

section Members

variable {ways : Ways} {t : FieldType} {required : Bool} {members : Json.Members} {key : String}

theorem FieldType.admits_obj (t : FieldType) (first second : Json.Members) :
    t.admits (.obj first) = t.admits (.obj second) := by
  cases t <;> rfl

/-- On a way it is the members that violate. -/
theorem ViolatesOff.of_members {others : Json.Members} (onward : ways.GoesOn)
    (each : ∀ key v u needed, (key, v) ∈ members → t.asks? key = some (u, needed) →
      ViolatesOff (ways.below key) u needed v → ViolatesOff ways t required (.obj others))
    (violated : ViolatesOff ways t required (.obj members)) : ViolatesOff ways t required (.obj others) := by
  cases violated with
  | kind other => exact .kind (t.admits_obj others members ▸ other)
  | entry member asked inside => exact each _ _ _ _ member asked inside
  | absent stops => exact absurd onward stops

/-- A new member on a way violates nothing else than its own value does. -/
theorem ViolatesOff.of_insert {w : Json} (onward : ways.GoesOn)
    (value : ∀ u needed, t.asks? key = some (u, needed) → ¬ ViolatesOff (ways.below key) u needed w)
    (violated : ViolatesOff ways t required (.obj (Assoc.insert key w members))) :
    ViolatesOff ways t required (.obj members) := by
  refine violated.of_members onward fun name v u needed member asked inside => ?_
  rcases Assoc.mem_insert member with same | member
  · cases same
    exact absurd inside (value u needed asked)
  · exact .entry member asked inside

theorem ViolatesOff.of_erase (onward : ways.GoesOn)
    (violated : ViolatesOff ways t required (.obj (Assoc.erase key members))) :
    ViolatesOff ways t required (.obj members) :=
  violated.of_members onward fun _ _ _ _ member asked inside =>
    .entry (List.mem_filter.1 member).1 asked inside

end Members

/-- A value that conforms violates nothing. -/
theorem Conforms.not_violates {t : FieldType} {v : Json} (conforms : Conforms t v) (required : Bool) :
    ¬ Violates t required v := by
  intro violated
  obtain ⟨e, failed⟩ := (Validator.check_fails_iff .passThrough required "").2 violated
  rw [(Validator.check_lossless_iff .passThrough required "" t v _).2 ⟨conforms, rfl⟩] at failed
  cases failed

namespace Validator

/-- A loop that fails does so by the failure of one of its entries. -/
theorem checkEach_error {α β : Type} {step : α → Checked Validation} {keep : α → Json → β} {entries : List α}
    {e : ValidationError} (failed : (checkEach step keep entries).result = .error e) :
    ∃ a ∈ entries, (step a).result = .error e := by
  induction entries with
  | nil => cases failed
  | cons a rest ih =>
    rw [checkEach] at failed
    rcases Traced.bind_error_iff.1 failed with here | ⟨entry, -, failed⟩
    · exact ⟨a, List.mem_cons_self, here⟩
    · rcases Traced.bind_error_iff.1 failed with later | ⟨_, -, ⟨⟩⟩
      obtain ⟨b, member, found⟩ := ih later
      exact ⟨b, List.mem_cons_of_mem a member, found⟩

/-- A value that is refused as invalid is violated by a value of another kind, so off all ways. -/
theorem violatesOff_of_invalid {coercion : Coercion} {t : FieldType} {required : Bool} {field : String}
    {v : Json} {m : Mismatch} (refused : (check coercion t required field v).result = .error (.invalid m))
    (ways : Ways) : ViolatesOff ways t required v := by
  induction t, v using induct generalizing required field ways with
  | mismatch t v other =>
    have violated : Violates t required v :=
      (check_fails_iff coercion required field).1 ⟨_, refused⟩
    rw [(Violates.kind_iff other).1 violated]
    exact .kind other
  | list element items ih =>
    have violated : Violates (.list (some element)) required (.arr items) :=
      (check_fails_iff coercion required field).1 ⟨_, refused⟩
    obtain ⟨v, member, inside⟩ := Violates.list_iff.1 violated
    exact .item member inside
  | object model members ih =>
    rw [check_object] at refused
    rcases Traced.bind_error_iff.1 refused with looped | ⟨_, -, refused⟩
    · obtain ⟨⟨key, v⟩, member, refused⟩ := checkEach_error looped
      unfold checkMember at refused
      split at refused
      · next f found =>
        exact .entry member (congrArg (Option.map _) found) (ih key v f member found refused _)
      · cases refused
    · rcases Traced.bind_error_iff.1 refused with incomplete | ⟨_, -, ⟨⟩⟩
      rcases requirePresent_spares field members model.fields with complete | ⟨m, missing⟩
      · cases complete.symm.trans incomplete
      · cases missing.symm.trans incomplete
  | dict keyType valueType members ih =>
    rw [check_dict] at refused
    rcases Traced.bind_error_iff.1 refused with looped | ⟨_, -, ⟨⟩⟩
    obtain ⟨⟨key, v⟩, member, refused⟩ := checkEach_error looped
    unfold checkEntry at refused
    split at refused
    · next accepted => exact .entry member (if_pos accepted) (ih key v member refused _)
    · cases refused
  | leaf t v leaf admitted =>
    rw [check_of_leaf leaf admitted] at refused
    cases refused

end Validator

end DocSchema
