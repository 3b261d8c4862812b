import DocSchema.Proofs.Schema.Declarations
import DocSchema.Proofs.Schema.TopLevel
import DocSchema.Proofs.Validation.Pruning

/-!
# A record and its fields

A whole record is validated member by member. In a schema that was compiled at the root, the record asks of a member
what the top-level descriptor of its name asks of the value on its own, and names it alike in reports. So the
validation of a record is put together from the validations of its fields.
-/

namespace DocSchema

namespace CompiledSchema

/-- What the fields say of a member of a record: the field of its name validates its value, and a member that is no
field is dropped as unknown. -/
def judge (c : CompiledSchema) (coercion : Coercion) (member : String × Json) :
    Except ValidationError Validation :=
  match c.field? member.1 with
  | some d => (d.validate coercion member.2).result
  | none => .ok ⟨none, [.unknown member.1]⟩

end CompiledSchema

namespace Validation

/-- The members whose parts are accepted, each with the value of its part. -/
def acceptedMembers (members : List (String × Json)) (parts : List Validation) : List (String × Json) :=
  (members.zip parts).filterMap fun e => e.2.value.map fun w => (e.1.1, w)

variable {judge : String × Json → Except ValidationError Validation} {members : List (String × Json)}

/-- All members can be judged if each of them can. -/
theorem exists_parts_iff : (∃ parts, members.mapM judge = .ok parts) ↔
    ∀ member ∈ members, ∃ part, judge member = .ok part := by
  induction members with
  | nil => exact iff_of_true ⟨[], rfl⟩ nofun
  | cons member rest ih =>
    simp only [List.mapM_cons, Traced.except_bind_ok_iff, List.forall_mem_cons, ← ih]
    constructor
    · rintro ⟨_, part, here, later, there, ⟨⟩⟩
      exact ⟨⟨part, here⟩, later, there⟩
    · rintro ⟨⟨part, here⟩, later, there⟩
      exact ⟨part :: later, part, here, later, there, rfl⟩

/-- An accepted member is one whose judgement gives its value. -/
theorem mem_acceptedMembers_iff {parts : List Validation} (judged : members.mapM judge = .ok parts) {key : String}
    {w : Json} : (key, w) ∈ acceptedMembers members parts ↔
      ∃ v ws, (key, v) ∈ members ∧ judge (key, v) = .ok ⟨some w, ws⟩ := by
  induction members generalizing parts with
  | nil =>
    cases judged
    simp [acceptedMembers]
  | cons member rest ih =>
    rw [List.mapM_cons] at judged
    obtain ⟨⟨value, ws⟩, here, judged⟩ := Traced.except_bind_ok_iff.1 judged
    obtain ⟨later, there, ⟨⟩⟩ := Traced.except_bind_ok_iff.1 judged
    have split : (key, w) ∈ acceptedMembers (member :: rest) (⟨value, ws⟩ :: later) ↔
        member.1 = key ∧ value = some w ∨ (key, w) ∈ acceptedMembers rest later := by
      cases value <;> simp [acceptedMembers, eq_comm]
    rw [split, ih there]
    constructor
    · rintro (⟨rfl, rfl⟩ | ⟨v, ws', inside, given⟩)
      · exact ⟨member.2, ws, List.mem_cons_self, here⟩
      · exact ⟨v, ws', List.mem_cons_of_mem member inside, given⟩
    · rintro ⟨v, ws', inside, given⟩
      rcases List.mem_cons.1 inside with rfl | inside
      · cases here.symm.trans given
        exact .inl ⟨rfl, rfl⟩
      · exact .inr ⟨v, ws', inside, given⟩

end Validation

namespace Validator

variable {step : String × Json → Checked Validation} {members kept : List (String × Json)}
  {warnings : List Mismatch}

/-- A loop over the members of an object keeps what is accepted of them and reports all that is dropped, in order. -/
theorem checkEach_ok_iff {judge : String × Json → Except ValidationError Validation}
    (alike : ∀ member, (step member).result = judge member) :
    (checkEach step (fun member w => (member.1, w)) members).result = .ok (kept, warnings) ↔
      ∃ parts, members.mapM judge = .ok parts ∧ kept = Validation.acceptedMembers members parts ∧
        warnings = parts.flatMap Validation.warnings := by
  induction members generalizing kept warnings with
  | nil =>
    constructor
    · rintro ⟨⟩
      exact ⟨[], rfl, rfl, rfl⟩
    · rintro ⟨parts, ⟨⟩, rfl, rfl⟩
      rfl
  | cons member rest ih =>
    rw [checkEach_cons_ok_iff]
    constructor
    · rintro ⟨entry, ⟨keptLater, warningsLater⟩, checked, looped, rfl, rfl⟩
      obtain ⟨parts, judged, rfl, rfl⟩ := ih.1 looped
      refine ⟨entry :: parts, ?_, ?_, rfl⟩
      · rw [List.mapM_cons, ← alike, checked, judged]
        rfl
      · cases value : entry.value <;> simp [Validation.acceptedMembers, value]
    · rintro ⟨parts, judged, rfl, rfl⟩
      rw [List.mapM_cons] at judged
      obtain ⟨entry, here, judged⟩ := Traced.except_bind_ok_iff.1 judged
      obtain ⟨later, there, ⟨⟩⟩ := Traced.except_bind_ok_iff.1 judged
      refine ⟨entry, _, (alike member).trans here, ih.2 ⟨later, there, rfl, rfl⟩, ?_, rfl⟩
      cases value : entry.value <;> simp [Validation.acceptedMembers, value]

end Validator

namespace Compiler

open Validator (rootField checkMember join)

variable {c : Compiler} {table : String} {schema : ObjectSchema} {compiled : CompiledSchema}

/-- A field of a compiled schema has a name. -/
theorem name_ne_empty (success : (c.compile table schema).result = .ok compiled) {f : FieldDecl}
    (declared : f ∈ schema.fields) : f.name ≠ "" := by
  obtain ⟨_, _, walked, _⟩ := compileAt_ok success
  obtain ⟨described, -, -⟩ := Walk.visitFields_ok walked declared
  exact (Field.isWellDeclared_of_describe described).named

/-- A top-level field is named alike on its own and as a member of the record. -/
theorem fieldText_place_root (table : String) (schema : ObjectSchema) {f : FieldDecl} (named : f.name ≠ "") :
    (f.place table schema Path.root).fieldText = join rootField f.name := by
  have nonempty : f.name.isEmpty = false := by simpa [String.isEmpty_iff] using named
  rw [FieldDescriptor.fieldText, Field.pathText_place_root, nonempty]
  simp [join]

/-- The check of a record judges a member as the top-level fields do. -/
theorem checkMember_result (success : (c.compile table schema).result = .ok compiled) (coercion : Coercion)
    (member : String × Json) :
    (checkMember coercion schema rootField member).result = compiled.judge coercion member := by
  unfold checkMember CompiledSchema.judge
  rw [field?_eq success (by decide)]
  cases found : schema.find? member.1 with
  | none => simp [Validator.drop, join]
  | some f =>
    have named : f.name = member.1 := by simpa using List.find?_some found
    have nonempty := name_ne_empty success (Model.mem_of_find? found)
    rw [← named, Option.map_some]
    dsimp only
    rw [FieldDescriptor.validate_result, fieldText_place_root table schema nonempty]
    rfl

/-- A record passes exactly if no required field is absent and the fields judge all of its members; it keeps what
they accept and reports what they report, in the order of the members. -/
theorem validateRecord_ok_iff (success : (c.compile table schema).result = .ok compiled) (coercion : Coercion)
    (members : List (String × Json)) (r : Validation) :
    (compiled.validateRecord coercion (.obj members)).result = .ok r ↔
      (∀ f ∈ schema.fields, f.required = true → ∃ v, (f.name, v) ∈ members) ∧
      ∃ parts, members.mapM (compiled.judge coercion) = .ok parts ∧
        r = ⟨some (.obj (Validation.acceptedMembers members parts)), parts.flatMap Validation.warnings⟩ := by
  obtain ⟨value, warnings⟩ := r
  obtain ⟨_, _, _, shape⟩ := compileAt_ok success
  have whole : compiled.record = .record table schema := by rw [shape]; rfl
  rw [CompiledSchema.validateRecord, FieldDescriptor.validate_result, whole]
  change (Validator.check coercion (.object schema) true rootField (.obj members)).result = _ ↔ _
  rw [Validator.check_object_ok_iff]
  simp only [Validator.checkEach_ok_iff (checkMember_result success coercion),
    Validator.requirePresent_ok_iff]
  constructor
  · rintro ⟨_, ⟨parts, judged, rfl, rfl⟩, present, rfl⟩
    exact ⟨present, parts, judged, rfl⟩
  · rintro ⟨present, parts, judged, ⟨⟩⟩
    exact ⟨_, ⟨parts, judged, rfl, rfl⟩, present, rfl⟩

/-- In a schema compiled at the root, the declared names are those of the top-level descriptors, and a record and its
fields agree, whatever the store makes of numbers. The record is valid if no required field is absent from it and
each member with a declared name is valid for the descriptor of that name. Then it keeps the members that their
descriptors accept, with the values that they accept, and warns of what the descriptors warn of and of each member
that is no field, in the order of the members. -/
theorem validateRecord_fieldwise (success : (c.compile table schema).result = .ok compiled) (coercion : Coercion)
    (members : List (String × Json)) :
    let whole := (compiled.validateRecord coercion (.obj members)).result
    (∀ name, (∃ d, compiled.field? name = some d) ↔ ∃ f ∈ schema.fields, f.name = name) ∧
    ((∃ r, whole = .ok r) ↔
      (∀ f ∈ schema.fields, f.required = true → ∃ v, (f.name, v) ∈ members) ∧
      ∀ key v d, (key, v) ∈ members → compiled.field? key = some d →
        ∃ r, (d.validate coercion v).result = .ok r) ∧
    ∀ r, whole = .ok r → ∃ kept parts, r.value = some (.obj kept) ∧
      (∀ key w, (key, w) ∈ kept ↔ ∃ d v ws, compiled.field? key = some d ∧ (key, v) ∈ members ∧
        (d.validate coercion v).result = .ok ⟨some w, ws⟩) ∧
      members.mapM (compiled.judge coercion) = .ok parts ∧
      kept = Validation.acceptedMembers members parts ∧ r.warnings = parts.flatMap Validation.warnings := by
  intro whole
  have ends := validateRecord_ok_iff success coercion members
  refine ⟨fun name => ?_, ?_, fun r ended => ?_⟩
  · rw [field?_eq success (by decide)]
    constructor
    · rintro ⟨d, found⟩
      obtain ⟨f, found, -⟩ := Option.map_eq_some_iff.1 found
      exact ⟨f, Model.mem_of_find? found, by simpa using List.find?_some found⟩
    · rintro ⟨f, declared, rfl⟩
      obtain ⟨g, found⟩ := Model.exists_find?_eq_some declared
      exact ⟨_, Option.map_eq_some_iff.2 ⟨g, found, rfl⟩⟩
  · constructor
    · rintro ⟨r, ended⟩
      obtain ⟨present, parts, judged, -⟩ := (ends r).1 ended
      refine ⟨present, fun key v d inside found => ?_⟩
      have part := Validation.exists_parts_iff.1 ⟨parts, judged⟩ (key, v) inside
      simpa only [CompiledSchema.judge, found] using part
    · rintro ⟨present, valid⟩
      have judged : ∀ member ∈ members, ∃ part, compiled.judge coercion member = .ok part := by
        rintro ⟨key, v⟩ inside
        unfold CompiledSchema.judge
        cases found : compiled.field? key with
        | none => exact ⟨_, rfl⟩
        | some d => exact valid key v d inside found
      obtain ⟨parts, judged⟩ := Validation.exists_parts_iff.2 judged
      exact ⟨_, (ends _).2 ⟨present, parts, judged, rfl⟩⟩
  · obtain ⟨-, parts, judged, rfl⟩ := (ends r).1 ended
    refine ⟨_, parts, rfl, fun key w => ?_, judged, rfl, rfl⟩
    rw [Validation.mem_acceptedMembers_iff judged]
    constructor
    · rintro ⟨v, ws, inside, accepted⟩
      unfold CompiledSchema.judge at accepted
      cases found : compiled.field? key with
      | none =>
        simp only [found] at accepted
        cases accepted
      | some d =>
        simp only [found] at accepted
        exact ⟨d, v, ws, rfl, inside, accepted⟩
    · rintro ⟨d, v, ws, found, inside, accepted⟩
      exact ⟨v, ws, inside, by simpa only [CompiledSchema.judge, found] using accepted⟩

/-- A node keeps its name and its child. It loses a member of the child that is not declared, a tag that is no
integer, and a member of its own that is no field. -/
theorem node_validateRecord_fieldwise :
    let members : List (String × Json) := [
      ("children", .obj [("a", .obj [("color", .str "red"), ("name", .str "leaf")])]), ("name", .str "root"),
      ("tags", .obj [("t", .str "one"), ("u", .num (.int 2))]), ("weight", .num (.int 3))]
    let kept : List (String × Json) := [
      ("children", .obj [("a", .obj [("name", .str "leaf")])]), ("name", .str "root"),
      ("tags", .obj [("u", .num (.int 2))])]
    let warnings : List Mismatch := [
      .unknown "children.a.color", .ofType "tags.t" "int" "string", .unknown "weight"]
    ∃ compiled, (Compiler.standard.compile "nodes" treeSchema).result = .ok compiled ∧
      (compiled.validateRecord .passThrough (.obj members)).result = .ok ⟨some (.obj kept), warnings⟩ ∧
      (∀ key w, (key, w) ∈ kept ↔ ∃ d v ws, compiled.field? key = some d ∧ (key, v) ∈ members ∧
        (d.validate .passThrough v).result = .ok ⟨some w, ws⟩) ∧
      ∃ parts, members.mapM (compiled.judge .passThrough) = .ok parts ∧
        warnings = parts.flatMap Validation.warnings := by
  intro members kept warnings
  have run : (Compiler.standard.compile "nodes" treeSchema).result.toOption.any (fun compiled =>
      decide ((compiled.validateRecord .passThrough (.obj members)).result.toOption =
        some ⟨some (.obj kept), warnings⟩)) = true := by
    decide +kernel
  obtain ⟨compiled, success, ended⟩ := exists_eq_ok_of_any run
  have ended := eq_ok_of_toOption (of_decide_eq_true ended)
  obtain ⟨_, parts, ⟨⟩, fields, judged, -, told⟩ :=
    (validateRecord_fieldwise success .passThrough members).2.2 _ ended
  exact ⟨compiled, success, ended, fields, parts, judged, told⟩

end Compiler

end DocSchema
