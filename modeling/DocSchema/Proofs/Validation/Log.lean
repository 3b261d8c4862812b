import DocSchema.Proofs.Validation.Check

/-!
# The log of a validation

A check logs each entry when it drops it, and a refusal when it fails. Nothing is logged behind a refusal, so the log
of a validation tells what its outcome tells: the warnings in order, and what became of the value as a whole.
-/

namespace DocSchema

namespace LogEntry

/-- An entry was dropped. -/
def dropped (m : Mismatch) : LogEntry :=
  ⟨.fieldDropped, [("actual", m.actual), ("expected", m.expected), ("field", m.field)]⟩

/-- A value was refused. Of a required field that is absent only the place is told. -/
def refused : ValidationError → LogEntry
  | .invalid m => ⟨.requiredFieldInvalid, [("actual", m.actual), ("field", m.field)]⟩
  | .missing m => ⟨.requiredFieldInvalid, [("field", m.field)]⟩

/-- The value as a whole was dropped. -/
def rejected (d : FieldDescriptor) : LogEntry :=
  ⟨.valueRejected, [("field", d.fieldText), ("table", d.table)]⟩

/-- The entries of one event. -/
def ofEvent (event : Event) (log : List LogEntry) : List LogEntry :=
  log.filter fun entry => entry.event = event

theorem event_refused (e : ValidationError) : (refused e).event = .requiredFieldInvalid := by
  cases e <;> rfl

theorem get?_field_refused (e : ValidationError) :
    Assoc.get? "field" (refused e).fields = some e.details.field := by
  cases e <;> rfl

theorem ofEvent_append (event : Event) (log later : List LogEntry) :
    ofEvent event (log ++ later) = ofEvent event log ++ ofEvent event later :=
  List.filter_append ..

theorem ofEvent_dropped (warnings : List Mismatch) :
    ofEvent .fieldDropped (warnings.map dropped) = warnings.map dropped := by
  refine List.filter_eq_self.2 fun entry member => ?_
  obtain ⟨m, -, rfl⟩ := List.mem_map.1 member
  rfl

theorem ofEvent_dropped_of_ne {event : Event} (other : event ≠ .fieldDropped) (warnings : List Mismatch) :
    ofEvent event (warnings.map dropped) = [] := by
  refine List.filter_eq_nil_iff.2 fun entry member => ?_
  obtain ⟨m, -, rfl⟩ := List.mem_map.1 member
  simp [dropped, other.symm]

end LogEntry

namespace Validator

variable {α β γ : Type}

/-- A run that ends well has logged its warnings and nothing else. One that fails has logged its refusal behind what
it had dropped before. -/
def Logs (warnings : α → List Mismatch) (x : Checked α) : Prop :=
  match x.result with
  | .ok a => x.notes = (warnings a).map .dropped
  | .error e => ∃ before : List Mismatch, x.notes = before.map .dropped ++ [.refused e]

/-- Two runs, one after the other, log the warnings of both. -/
theorem Logs.both {u : α → List Mismatch} {v : β → List Mismatch} {w : γ → List Mismatch} {x : Checked α}
    {y : α → Checked β} {both : α → β → γ} (first : Logs u x) (second : ∀ a, Logs v (y a))
    (sum : ∀ a b, w (both a b) = u a ++ v b) :
    Logs w (do
      let a ← x
      let b ← y a
      return both a b) := by
  obtain ⟨log, e | a⟩ := x
  · exact first
  · have logged : log = (u a).map .dropped := first
    have second := second a
    rw [Traced.ok_bind]
    generalize y a = later at second
    obtain ⟨laterLog, e | b⟩ := later
    · obtain ⟨before, loggedLater⟩ := second
      refine ⟨u a ++ before, ?_⟩
      rw [List.map_append, List.append_assoc, ← loggedLater, ← logged]
      rfl
    · have loggedLater : laterLog = (v b).map .dropped := second
      change log ++ (laterLog ++ []) = (w (both a b)).map .dropped
      rw [List.append_nil, sum, List.map_append, logged, loggedLater]

/-- What a run makes of its value does not show in the log. -/
theorem Logs.map {u : α → List Mismatch} {w : β → List Mismatch} {x : Checked α} {f : α → β} (logs : Logs u x)
    (same : ∀ a, w (f a) = u a) : Logs w (x >>= fun a => pure (f a)) := by
  obtain ⟨log, e | a⟩ := x
  · exact logs
  · have logged : log = (u a).map .dropped := logs
    change log ++ [] = (w (f a)).map .dropped
    rw [List.append_nil, same, logged]

theorem drop_logs (m : Mismatch) : Logs Validation.warnings (drop m) :=
  rfl

theorem mismatch_logs (required : Bool) (m : Mismatch) : Logs Validation.warnings (mismatch required m) := by
  cases required with
  | false => exact drop_logs m
  | true => exact ⟨[], rfl⟩

/-- Looking for required fields drops nothing. -/
theorem requirePresent_logs (field : String) (members : List (String × Json)) (fields : List FieldDecl) :
    Logs (fun _ => []) (requirePresent field members fields) := by
  induction fields with
  | nil => exact rfl
  | cons f rest ih =>
    rw [requirePresent]
    split
    · exact ⟨[], rfl⟩
    · exact ih

theorem checkEach_logs {step : α → Checked Validation} {keep : α → Json → β} {entries : List α}
    (each : ∀ a ∈ entries, Logs Validation.warnings (step a)) : Logs Prod.snd (checkEach step keep entries) := by
  induction entries with
  | nil => exact rfl
  | cons a rest ih =>
    have later := ih fun b member => each b (List.mem_cons_of_mem a member)
    exact (each a List.mem_cons_self).both (fun _ => later) fun _ _ => rfl

/-- A check logs its warnings, and its refusal if it fails. -/
theorem check_logs (coercion : Coercion) (t : FieldType) (required : Bool) (field : String) (v : Json) :
    Logs Validation.warnings (check coercion t required field v) := by
  induction t, v using induct generalizing required field with
  | mismatch t v other =>
    rw [check_of_not_admits other]
    exact mismatch_logs required _
  | list element items ih =>
    rw [check_list]
    refine (checkEach_logs fun item inside => ?_).map fun _ => rfl
    exact ih item.1 (mem_items_iff.2 ⟨item, inside, rfl⟩) false _
  | object model members ih =>
    rw [check_object]
    refine (checkEach_logs fun member inside => ?_).both (fun _ => requirePresent_logs ..) fun _ _ =>
      (List.append_nil _).symm
    unfold checkMember
    split
    · next f found => exact ih member.1 member.2 f inside found _ _
    · exact drop_logs _
  | dict keyType valueType members ih =>
    rw [check_dict]
    refine (checkEach_logs fun entry inside => ?_).map fun _ => rfl
    unfold checkEntry
    split
    · exact ih entry.1 entry.2 inside false _
    · exact drop_logs _
  | leaf t v leaf admitted =>
    rw [check_of_leaf leaf admitted]
    exact rfl

end Validator

namespace FieldDescriptor

open LogEntry

/-- A validation logs what its check logs, and a rejection last if no value is left. -/
theorem validate_log (d : FieldDescriptor) (coercion : Coercion) (v : Json) :
    match (d.validate coercion v).result with
    | .ok ⟨none, warnings⟩ => (d.validate coercion v).notes = warnings.map dropped ++ [rejected d]
    | .ok ⟨some _, warnings⟩ => (d.validate coercion v).notes = warnings.map dropped
    | .error e => ∃ before : List Mismatch, (d.validate coercion v).notes = before.map dropped ++ [refused e] := by
  have logs := Validator.check_logs coercion d.type d.required d.fieldText v
  unfold validate
  generalize Validator.check coercion d.type d.required d.fieldText v = checked at logs
  obtain ⟨log, e | ⟨value, warnings⟩⟩ := checked
  · exact logs
  · have logged : log = warnings.map dropped := logs
    cases value with
    | none => exact congrArg (· ++ [rejected d]) logged
    | some w => exact (List.append_nil log).trans logged

/-- The log of a validation and its outcome tell the same. If the validation ends well, the log holds the drops of its
warnings, in their order, and no refusal, and it ends with its only rejection if there is no value, or has none. If the
validation fails, the log ends with its only refusal, which tells the place of the error, and there is no rejection. -/
theorem validate_logs_outcome (d : FieldDescriptor) (coercion : Coercion) (v : Json) :
    let log := (d.validate coercion v).notes
    match (d.validate coercion v).result with
    | .ok r =>
      ofEvent .fieldDropped log = r.warnings.map dropped ∧ ofEvent .requiredFieldInvalid log = [] ∧
        match r.value with
        | none => ofEvent .valueRejected log = [rejected d] ∧ log.getLast? = some (rejected d)
        | some _ => ofEvent .valueRejected log = []
    | .error e =>
      ofEvent .requiredFieldInvalid log = [refused e] ∧ log.getLast? = some (refused e) ∧
        Assoc.get? "field" (refused e).fields = some e.details.field ∧ ofEvent .valueRejected log = [] := by
  intro log
  have noRefusal (ms : List Mismatch) : ofEvent .requiredFieldInvalid (ms.map dropped) = [] :=
    ofEvent_dropped_of_ne (by decide) ms
  have noRejection (ms : List Mismatch) : ofEvent .valueRejected (ms.map dropped) = [] :=
    ofEvent_dropped_of_ne (by decide) ms
  have logged := d.validate_log coercion v
  cases outcome : (d.validate coercion v).result with
  | error e =>
    rw [outcome] at logged
    obtain ⟨before, logged⟩ := logged
    have logged : log = before.map dropped ++ [refused e] := logged
    have refusal : ofEvent .requiredFieldInvalid [refused e] = [refused e] := by simp [ofEvent, event_refused]
    have other : ofEvent .valueRejected [refused e] = [] := by simp [ofEvent, event_refused]
    refine ⟨?_, ?_, get?_field_refused e, ?_⟩
    · rw [logged, ofEvent_append, noRefusal, refusal, List.nil_append]
    · rw [logged, List.getLast?_concat]
    · rw [logged, ofEvent_append, noRejection, other, List.nil_append]
  | ok r =>
    rw [outcome] at logged
    obtain ⟨_ | w, warnings⟩ := r
    · have logged : log = warnings.map dropped ++ [rejected d] := logged
      refine ⟨?_, ?_, ?_, ?_⟩
      · rw [logged, ofEvent_append, ofEvent_dropped]
        exact List.append_nil _
      · rw [logged, ofEvent_append, noRefusal]
        rfl
      · rw [logged, ofEvent_append, noRejection]
        rfl
      · rw [logged, List.getLast?_concat]
    · have logged : log = warnings.map dropped := logged
      refine ⟨?_, ?_, ?_⟩
      · rw [logged, ofEvent_dropped]
      · rw [logged, noRefusal]
      · rw [logged]
        exact noRejection warnings

end FieldDescriptor

end DocSchema
