import DocSchema.Proofs.Schema.Texts
import DocSchema.Proofs.Validation.Log

/-!
# Places in reports

A check reports an entry under the text of what holds it, a dot or a bracket, and the name or the number of the
entry. So the reports of a validation stay below the field that is validated. A whole record is reported under a
marker that is left out below it, and that marker may be the name of a field, too: what such a field holds is
reported under its bare name.
-/

namespace DocSchema

/-- The text goes on behind the text of a place with a dot or an opening bracket. -/
def IsBelow (place text : String) : Prop :=
  place.toList ++ ['.'] <+: text.toList ∨ place.toList ++ ['['] <+: text.toList

/-- The text names the place or something below it. -/
def IsWithin (place text : String) : Prop :=
  text = place ∨ IsBelow place text

instance (place text : String) : Decidable (IsWithin place text) :=
  inferInstanceAs (Decidable (_ ∨ _ ∨ _))

namespace IsBelow

variable {place field text : String}

/-- Nothing below a place is taken for the whole record. -/
theorem ne_marker (below : IsBelow place text) : text ≠ "" ∧ text ≠ Validator.rootField := by
  have separated : '.' ∈ text.toList ∨ '[' ∈ text.toList := by
    apply below.imp
    · intro start
      exact start.subset (List.mem_append_right _ List.mem_cons_self)
    · intro start
      exact start.subset (List.mem_append_right _ List.mem_cons_self)
  constructor
  · intro empty
    simp [empty] at separated
  · intro marker
    rw [marker] at separated
    revert separated
    decide

/-- What lies below a place within another one lies below that one, too. -/
theorem of_within (within : IsWithin place field) (below : IsBelow field text) : IsBelow place text := by
  rcases within with rfl | start
  · exact below
  · have longer : field.toList <+: text.toList := by
      rcases below with dot | bracket
      · exact (List.prefix_append _ _).trans dot
      · exact (List.prefix_append _ _).trans bracket
    exact start.imp (fun dot => dot.trans longer) fun bracket => bracket.trans longer

/-- A member is reported below the field that holds it, unless that field is taken for the whole record. -/
theorem join (unmarked : field ≠ "" ∧ field ≠ Validator.rootField) (key : String) :
    IsBelow field (Validator.join field key) := by
  have spelled : Validator.join field key = field ++ "." ++ key := by
    rw [Validator.join, if_neg (not_or.2 unmarked)]
    rfl
  left
  simp [spelled]

/-- An item of a list is reported below the list. -/
theorem item (field : String) (index : Nat) : IsBelow field s!"{field}[{index}]" := by
  have spelled : s!"{field}[{index}]" = field ++ "[" ++ (toString index ++ "]") := by
    simp only [String.append_assoc]
    rfl
  right
  rw [spelled]
  simp

end IsBelow

/-- The entry tells of the place or of something below it. -/
def LogEntry.TellsOf (place : String) (entry : LogEntry) : Prop :=
  ∃ text, Assoc.get? "field" entry.fields = some text ∧ IsWithin place text

namespace Validator

open LogEntry

variable {α β : Type} {place field : String} {entry : LogEntry}

theorem tellsOf_mismatch {required : Bool} {m : Mismatch} (within : IsWithin place m.field)
    (logged : entry ∈ (mismatch required m).notes) : entry.TellsOf place := by
  have told : entry = dropped m ∨ entry = refused (.invalid m) := by
    cases required with
    | false => exact .inl (List.mem_singleton.1 logged)
    | true => exact .inr (List.mem_singleton.1 logged)
  rcases told with rfl | rfl
  · exact ⟨m.field, rfl, within⟩
  · exact ⟨m.field, rfl, within⟩

/-- A loop logs what its steps log. -/
theorem mem_checkEach_notes {step : α → Checked Validation} {keep : α → Json → β} {entries : List α}
    (logged : entry ∈ (checkEach step keep entries).notes) : ∃ a ∈ entries, entry ∈ (step a).notes := by
  induction entries with
  | nil => cases logged
  | cons a rest ih =>
    rw [checkEach] at logged
    rcases Traced.mem_notes_bind_iff.1 logged with here | ⟨_, -, logged⟩
    · exact ⟨a, List.mem_cons_self, here⟩
    · rcases Traced.mem_notes_bind_iff.1 logged with later | ⟨_, -, nothing⟩
      · obtain ⟨b, member, later⟩ := ih later
        exact ⟨b, List.mem_cons_of_mem a member, later⟩
      · cases nothing

/-- A required field that is absent is reported where it should be. -/
theorem mem_requirePresent_notes {members : List (String × Json)} {fields : List FieldDecl}
    (logged : entry ∈ (requirePresent field members fields).notes) :
    ∃ name, entry = refused (.missing (.missing (join field name))) := by
  induction fields with
  | nil => cases logged
  | cons f rest ih =>
    rw [requirePresent] at logged
    split at logged
    · exact ⟨f.name, List.mem_singleton.1 logged⟩
    · exact ih logged

/-- A check logs nothing but what it tells of the place that it is made for, or of something below. That place must
not be taken for the whole record where the check goes on to members. -/
theorem tellsOf_check {coercion : Coercion} {t : FieldType} {required : Bool} {v : Json} (within : IsWithin place field)
    (unmarked : t.isContainer = true → field ≠ "" ∧ field ≠ rootField)
    (logged : entry ∈ (check coercion t required field v).notes) : entry.TellsOf place := by
  induction t, v using induct generalizing required field with
  | mismatch t v other =>
    rw [check_of_not_admits other] at logged
    exact tellsOf_mismatch within logged
  | list element items ih =>
    rw [check_list] at logged
    rcases Traced.mem_notes_bind_iff.1 logged with looped | ⟨_, -, nothing⟩
    · obtain ⟨item, inside, logged⟩ := mem_checkEach_notes looped
      have below : IsBelow field s!"{field}[{item.2}]" := .item field item.2
      exact ih item.1 (mem_items_iff.2 ⟨item, inside, rfl⟩) (.inr (below.of_within within)) (fun _ => below.ne_marker)
        logged
    · cases nothing
  | object model members ih =>
    have below := IsBelow.join (unmarked rfl)
    rw [check_object] at logged
    rcases Traced.mem_notes_bind_iff.1 logged with looped | ⟨_, -, logged⟩
    · obtain ⟨member, inside, logged⟩ := mem_checkEach_notes looped
      unfold checkMember at logged
      split at logged
      · next f found =>
        exact ih member.1 member.2 f inside found (.inr ((below member.1).of_within within))
          (fun _ => (below member.1).ne_marker) logged
      · cases List.mem_singleton.1 logged
        exact ⟨join field member.1, rfl, .inr ((below member.1).of_within within)⟩
    · rcases Traced.mem_notes_bind_iff.1 logged with absent | ⟨_, -, nothing⟩
      · obtain ⟨name, rfl⟩ := mem_requirePresent_notes absent
        exact ⟨join field name, rfl, .inr ((below name).of_within within)⟩
      · cases nothing
  | dict keyType valueType members ih =>
    have below := IsBelow.join (unmarked rfl)
    rw [check_dict] at logged
    rcases Traced.mem_notes_bind_iff.1 logged with looped | ⟨_, -, nothing⟩
    · obtain ⟨item, inside, logged⟩ := mem_checkEach_notes looped
      unfold checkEntry at logged
      split at logged
      · exact ih item.1 item.2 inside (.inr ((below item.1).of_within within)) (fun _ => (below item.1).ne_marker)
          logged
      · cases List.mem_singleton.1 logged
        exact ⟨join field item.1, rfl, .inr ((below item.1).of_within within)⟩
    · cases nothing
  | leaf t v leaf admitted =>
    rw [check_of_leaf leaf admitted] at logged
    cases logged

end Validator

/-- A path that goes on below another one has a text, since its last step has a name. -/
theorem Path.Extends.text_ne_empty {p base : Path} (below : p.Extends base) (strict : base.depth < p.depth) :
    p.text ≠ "" := by
  obtain ⟨steps, rfl, shaped⟩ := below
  rcases List.eq_nil_or_concat steps with rfl | ⟨front, s, rfl⟩
  · simp at strict
  · rw [List.concat_eq_append] at shaped ⊢
    have named : s.key.name ≠ "" := (shaped.named s (by simp)).1
    have spelled : s.key.segment ≠ "" := by
      cases key : s.key with
      | literal name => simpa [key, StepKey.segment, StepKey.name] using named
      | placeholder name => simp [StepKey.segment]
    have last : base.extend (front ++ [s]) = (base.extend front).child s := by
      simp [Path.extend, Path.child]
    intro empty
    have chars := Path.chars_child (base.extend front) s
    rw [← last, Path.chars, empty] at chars
    simp at chars
    exact spelled chars.2.2

namespace Compiler

variable {c : Compiler} {table : String} {schema : ObjectSchema} {base : Path} {compiled : CompiledSchema}

/-- What is registered lies under a text that is not empty. -/
theorem pathText_ne_empty (success : (c.compileAt table schema base).result = .ok compiled) {text : String}
    {d : FieldDescriptor} (registered : compiled.registry.get? text = some d) : d.pathText ≠ "" := by
  obtain ⟨place, -, room⟩ := (get?_registry_iff_isPlace rfl success text d).1 registered
  have formed := isWellFormed_of_isPlace success place room
  exact formed.below.text_ne_empty formed.strict

/-- Whatever is validated for a registered descriptor, each warning, or the error, tells of the place of the
descriptor or of something below it. Only a field that holds members must not have the text by which whole records
are reported. -/
theorem diagnostics_stay_within (success : (c.compileAt table schema base).result = .ok compiled) {text : String}
    {d : FieldDescriptor} (registered : compiled.registry.get? text = some d)
    (unmarked : d.type.isContainer = true → d.pathText ≠ Validator.rootField) (coercion : Coercion) (v : Json) :
    match (d.validate coercion v).result with
    | .ok r => ∀ m ∈ r.warnings, IsWithin d.pathText m.field
    | .error e => IsWithin d.pathText e.details.field := by
  have filled := pathText_ne_empty success registered
  have named : d.fieldText = d.pathText := by
    rw [FieldDescriptor.fieldText, if_neg (by simpa [String.isEmpty_iff] using filled)]
  have logs := Validator.check_logs coercion d.type d.required d.fieldText v
  have tells : ∀ entry ∈ (Validator.check coercion d.type d.required d.fieldText v).notes,
      entry.TellsOf d.pathText := by
    intro entry logged
    apply Validator.tellsOf_check (.inl named) _ logged
    intro container
    rw [named]
    exact ⟨filled, unmarked container⟩
  rw [FieldDescriptor.validate_result]
  generalize Validator.check coercion d.type d.required d.fieldText v = checked at logs tells
  obtain ⟨log, e | r⟩ := checked
  · obtain ⟨before, logged⟩ := logs
    have last : LogEntry.refused e ∈ log := by
      have logged : log = before.map .dropped ++ [.refused e] := logged
      simp [logged]
    obtain ⟨text, told, within⟩ := tells _ last
    rw [LogEntry.get?_field_refused] at told
    cases told
    exact within
  · intro m member
    have dropped : LogEntry.dropped m ∈ log := by
      have logged : log = r.warnings.map .dropped := logs
      simpa [logged] using ⟨m, member, rfl⟩
    obtain ⟨text, told, within⟩ := tells _ dropped
    cases told
    exact within

/-- A tag that is no integer is reported below the tags. -/
theorem tags_diagnostics_stay_within :
    ∃ compiled d warning, (Compiler.standard.compile "nodes" treeSchema).result = .ok compiled ∧
      compiled.registry.get? "tags" = some d ∧ (d.type.isContainer = true → d.pathText ≠ Validator.rootField) ∧
      (d.validate .passThrough (.obj [("t", .str "one")])).result = .ok ⟨some (.obj []), [warning]⟩ ∧
      warning.field = "tags.t" ∧ IsWithin d.pathText warning.field := by
  obtain ⟨compiled, success⟩ := treeSchema_compiles
  have registered := get?_of_declared success (f := treeSchema.fields[1]) (List.getElem_mem _)
  have unmarked : (treeSchema.fields[1].place "nodes" treeSchema Path.root).pathText ≠ Validator.rootField := by
    decide
  have within := diagnostics_stay_within success registered (fun _ => unmarked) .passThrough
    (.obj [("t", .str "one")])
  refine ⟨compiled, _, .ofType "tags.t" "int" "string", success, registered, fun _ => unmarked, rfl, rfl, ?_⟩
  exact within _ List.mem_cons_self

/-- Settings with a collection that has the name by which whole records are reported. -/
def settingsSchema : ObjectSchema :=
  ⟨"Settings", none, [Field.plain "$root" (.dict .string .int), Field.plain "limit" .int]⟩

/-- An entry of the collection is reported under its bare name, which is that of another field. -/
theorem settingsSchema_points_elsewhere :
    ∃ compiled d other warning, (Compiler.standard.compile "settings" settingsSchema).result = .ok compiled ∧
      compiled.registry.get? "$root" = some d ∧ compiled.registry.get? "limit" = some other ∧
      (d.validate .passThrough (.obj [("limit", .str "low")])).result = .ok ⟨some (.obj []), [warning]⟩ ∧
      warning.field = other.pathText ∧ ¬ IsWithin d.pathText warning.field := by
  have ends : (Compiler.standard.compile "settings" settingsSchema).result.isOk = true := by
    decide
  obtain ⟨compiled, success⟩ := exists_eq_ok_of_isOk ends
  have registered := get?_of_declared success (f := settingsSchema.fields[0]) (List.getElem_mem _)
  have other := get?_of_declared success (f := settingsSchema.fields[1]) (List.getElem_mem _)
  exact ⟨compiled, _, _, .ofType "limit" "int" "string", success, registered, other, rfl, rfl, by decide⟩

end Compiler

end DocSchema
