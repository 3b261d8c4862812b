import DocSchema.Proofs.Store.Lacking
import DocSchema.Proofs.Table.Effect
import DocSchema.Proofs.Table.Outcome
import DocSchema.Proofs.Table.Reports
import DocSchema.Proofs.Table.Resolution

/-!
# Readable records under field changes

A field is written and removed without regard to what the objects above it require. So a record that can be read as
a whole may become one that lacks a required field, but only in an object on the way to a field that was changed:
in one that the write has made, or one that a field was removed from. Apart from that it stays readable.
-/

namespace DocSchema

open DocSchema.Action

namespace TableRequest

/-- The request changes fields of a record. -/
def changesFields : TableRequest → Bool
  | .set .. | .setMany .. | .remove .. | .removeMany .. => true
  | _ => false

end TableRequest

namespace Table

variable {name primaryKey : String} {schema : ObjectSchema} {config : EngineConfig} {t : Table}

/-- The request asks for a value to be written at the place, or for the value there to be removed. -/
def Changes (t : Table) (request : TableRequest) (p : Path) : Prop :=
  (∃ s ∈ request.setters, t.location s = .ok p) ∨
    ∃ r ∈ request.removers, ∃ d, t.resolve r.path r.arguments = .ok (d, p)

/-- The ways from a record to the places that the request changes. -/
def ways (t : Table) (request : TableRequest) : Ways :=
  fun keys => ∃ p, t.Changes request p ∧ keys = p.keys

/-- A read of a record that gives a value has found a record and validated it. -/
theorem getRecord_ok {session : Session MemoryStore} {keyValue : Json} {r : Validation}
    (success : result (t.getRecord keyValue) session = .ok r) (accepted : r.accepted = true) :
    ∃ key record, (t.checkKey session.store.coercion t.primaryKey keyValue).result = .ok key ∧
      session.store.find? key = some record ∧
      (t.compiled.record.validate session.store.coercion record).result = .ok r := by
  have steps := success
  unfold getRecord at steps
  obtain ⟨key, keyed, steps⟩ := bind_ok_iff.1 steps
  have checked := TableM.result_checkedKey.symm.trans keyed
  cases found : session.store.find? key with
  | some record =>
    rw [result_getRecord checked found] at success
    exact ⟨key, record, checked, found, eq_ok_of_mapError success⟩
  | none =>
    obtain ⟨stored, called, steps⟩ := bind_ok_iff.1 steps
    have kept : (after (t.recordKey keyValue : TableM MemoryStore _) session).store = session.store :=
      t.checkedKey_reads ⟨t.primaryKey, keyValue⟩ session
    have absent : stored = none := by
      have read : some stored = some (session.store.find? key) := by
        rw [← kept]
        exact congrArg Except.toOption called.symm
      rw [found] at read
      exact Option.some.inj read
    cases absent
    cases steps
    cases accepted

/-- A validation of a whole record ends well exactly if the record violates nothing, and then accepts it. -/
theorem validateRecord_iff (built : (ofSchema name primaryKey schema config).result = .ok t) (coercion : Coercion)
    (record : Json) :
    (∃ r, (t.compiled.record.validate coercion record).result = .ok r ∧ r.accepted = true) ↔
      ¬ Violates (.object schema) true record := by
  rw [FieldDescriptor.validate_result, ← compiled_schema built]
  change (∃ r, (Validator.check coercion _ true _ record).result = .ok r ∧ r.accepted = true) ↔ _
  rw [← Validator.check_fails_iff coercion true t.compiled.record.fieldText, Traced.not_fails_iff]
  constructor
  · rintro ⟨r, checked, -⟩
    exact ⟨r, checked⟩
  · rintro ⟨⟨value, ws⟩, checked⟩
    refine ⟨_, checked, ?_⟩
    cases value with
    | some w => rfl
    | none =>
      obtain ⟨-, optional, -⟩ := Validator.check_dropped _ _ _ checked
      cases optional

section Effects

variable (built : (ofSchema name primaryKey schema config).result = .ok t)
  (regular : ObjectSchema.IndexesSelfRefs schema)
  (distinct : ∀ model, (FieldType.object schema).Holds model → (model.fields.map Field.name).Nodup)
  (defaults : (FieldType.object schema).HasSoundDefaults)
include built regular distinct defaults

/-- What a batch of checked setters writes violates nothing off the ways to the places of its setters. -/
theorem writeAll_keeps_sound {coercion : Coercion} (kinds : coercion.KeepsKinds) {request : TableRequest}
    (safe : request.IsSafe) {prepared : PreparedWrite}
    (ready : (t.prepareAll coercion request.setters).result = .ok prepared) {before after : Json.Members}
    (applied : MemoryStore.writeAll prepared.updates before = .ok after)
    (sound : ¬ ViolatesOff (t.ways request) (.object schema) true (.obj before)) :
    ¬ ViolatesOff (t.ways request) (.object schema) true (.obj after) := by
  refine MemoryStore.writeAll_induction
    (P := fun members => ¬ ViolatesOff (t.ways request) (.object schema) true (.obj members))
    (fun u member now next sound wrote => ?_) sound applied
  obtain ⟨setter, declared, own, prepared, inside⟩ := prepareAll_ok ready member
  obtain ⟨s, rfl⟩ := safe setter declared
  obtain ⟨d, ws, resolved, validated⟩ := prepare_checked_ok prepared inside
  have located : t.location (.checked s) = .ok u.1 := by
    simp only [location, resolved, Except.map]
  obtain ⟨registered, path⟩ := resolve_ok resolved
  obtain ⟨place, -, -⟩ := isPlace_of_registered built registered
  rw [FieldDescriptor.validate_result] at validated
  have conforms : Conforms d.type u.2 :=
    Validator.conforms_of_keepsKinds kinds (fun model held => distinct model (place.holds held)) validated
  have way : t.ways request (d.path.steps.map (PathStep.keyUnder s.arguments)) := by
    refine ⟨u.1, .inl ⟨_, declared, located⟩, ?_⟩
    rw [path, Path.keys, Path.under, List.map_map]
    rfl
  rw [path] at wrote
  exact ViolatesOff.not_of_write (place.descends regular distinct) defaults conforms wrote way sound

omit built regular distinct defaults in
/-- A batch of removals violates nothing off the ways to its places. -/
theorem removeAll_keeps_sound {request : TableRequest} {paths : List Path}
    (resolved : t.resolveRemovers request.removers = .ok paths) {before after : Json.Members}
    (applied : MemoryStore.removeAll paths before = .ok after)
    (sound : ¬ ViolatesOff (t.ways request) (.object schema) true (.obj before)) :
    ¬ ViolatesOff (t.ways request) (.object schema) true (.obj after) := by
  refine MemoryStore.removeAll_induction
    (P := fun members => ¬ ViolatesOff (t.ways request) (.object schema) true (.obj members))
    (fun p member now next sound removed => ?_) sound applied
  obtain ⟨r, declared, d, resolved⟩ := resolveRemovers_ok resolved member
  exact ViolatesOff.not_of_remove removed ⟨p, .inr ⟨r, declared, d, resolved⟩, rfl⟩ sound

/-- A change of fields leaves every record in place, and violates nothing off the ways to the changed places. -/
theorem Effect.keeps_sound {s s' : MemoryStore} (kinds : s.coercion.KeepsKinds) {request : TableRequest}
    (fieldwise : request.changesFields = true) (safe : request.IsSafe) (effect : Effect t s request s')
    {key : RecordKey} {members : Json.Members} (found : s.find? key = some (.obj members))
    (sound : ¬ ViolatesOff (t.ways request) (.object schema) true (.obj members)) :
    ∃ after, s'.find? key = some (.obj after) ∧
      ¬ ViolatesOff (t.ways request) (.object schema) true (.obj after) := by
  cases effect with
  | stay => exact ⟨members, found, sound⟩
  | @write _ _ other prepared _ ready checked written =>
    obtain ⟨before, after, start, applied, rfl⟩ := MemoryStore.setFields_ok written
    rw [MemoryStore.find?_put]
    split
    · next same =>
      rw [MemoryStore.target_of_find? ((MemoryStore.find?_of_id same).trans found)] at start
      cases start
      exact ⟨after, rfl, writeAll_keeps_sound built regular distinct defaults kinds safe ready applied sound⟩
    · exact ⟨members, found, sound⟩
  | @remove _ _ other paths _ resolved checked removed =>
    rcases MemoryStore.removeFields_ok removed with rfl | ⟨before, after, stored, applied, rfl⟩
    · exact ⟨members, found, sound⟩
    · rw [MemoryStore.find?_put]
      split
      · next same =>
        cases stored.symm.trans ((MemoryStore.find?_of_id same).trans found)
        exact ⟨after, rfl, removeAll_keeps_sound resolved applied sound⟩
      · exact ⟨members, found, sound⟩
  | put => cases fieldwise
  | delete => cases fieldwise

/-- In a table of a schema in which only collections of self references are indexed, no model declares a name twice
and the custom map defaults are sound, over a store that keeps numbers as numbers: if a record is read as a whole
and accepted, then after every change of fields by checked setters and removers, failed ones included, the record
is still there. It is read and accepted exactly if no object on the way to a changed place lacks a required field,
and else refused for a field that is missing, never for one that is invalid. -/
theorem field_changes_keep_readable {session : Session MemoryStore} (kinds : session.store.coercion.KeepsKinds)
    {keyValue : Json} {r : Validation} (readable : result (t.getRecord keyValue) session = .ok r)
    (accepted : r.accepted = true) (request : TableRequest) (fieldwise : request.changesFields = true)
    (safe : request.IsSafe) :
    let next := after (t.handle request) session
    ∃ key record, (t.checkKey session.store.coercion t.primaryKey keyValue).result = .ok key ∧
      next.store.find? key = some record ∧
      ((∃ s, result (t.getRecord keyValue) next = .ok s ∧ s.accepted = true) ↔
        ¬ LacksOn (t.ways request) (.object schema) record) ∧
      (LacksOn (t.ways request) (.object schema) record →
        ∃ m, result (t.getRecord keyValue) next = .error (.validation (.missing m))) := by
  intro next
  obtain ⟨key, record, checked, found, validated⟩ := getRecord_ok readable accepted
  have unviolated := (validateRecord_iff built session.store.coercion record).1 ⟨r, validated, accepted⟩
  obtain ⟨members, rfl⟩ : ∃ members, record = .obj members := by
    cases record with
    | obj members => exact ⟨members, rfl⟩
    | _ => exact absurd (.kind rfl) unviolated
  have effect := effect_handle t request session
  have hook : next.store.coercion = session.store.coercion := effect.coercion_eq
  obtain ⟨changed, stored, sound⟩ := effect.keeps_sound built regular distinct defaults kinds fieldwise safe found
    fun off => unviolated off.violates
  have read : result (t.getRecord keyValue) next =
      (t.compiled.record.validate next.store.coercion (.obj changed)).result.mapError .validation :=
    result_getRecord (hook ▸ checked) stored
  refine ⟨key, .obj changed, checked, stored, ?_, fun lacks => ?_⟩
  · rw [← violates_iff_lacksOn sound, ← validateRecord_iff built next.store.coercion, read]
    refine exists_congr fun s => and_congr_left fun _ => ?_
    exact ⟨eq_ok_of_mapError, fun validated => congrArg (Except.mapError TableError.validation) validated⟩
  · have violated : Violates (.object schema) true (.obj changed) := lacks.violates true
    rw [read, FieldDescriptor.validate_result]
    have type : t.compiled.record.type = .object schema := congrArg FieldType.object (compiled_schema built)
    obtain ⟨e, refused⟩ := (Validator.check_fails_iff next.store.coercion true t.compiled.record.fieldText).2
      (type ▸ violated)
    change ∃ m, (Validator.check _ _ true _ _).result.mapError _ = _
    rw [refused]
    cases e with
    | missing m => exact ⟨m, rfl⟩
    | invalid m => exact absurd (type ▸ Validator.violatesOff_of_invalid refused _) sound

end Effects

/-! Users with projects, each of which has to have a name. -/

def projectSchema : ObjectSchema :=
  ⟨"Project", none, [{ Field.plain "name" FieldType.string with required := true }, Field.plain "budget" .float]⟩

def userSchema : ObjectSchema :=
  ⟨"User", none,
    [{ Field.plain "id" FieldType.string with required := true },
      Field.plain "projects" (.dict .string (.object projectSchema))]⟩

/-- One user with one project. -/
def userSession : Session MemoryStore :=
  let projects : Json := .obj [("p1", .obj [("name", .str "Atlas")])]
  ⟨(MemoryStore.empty .passThrough).put ⟨"id", .str "u1"⟩ [("id", .str "u1"), ("projects", projects)], []⟩

def budgetPath : String := "projects.\x7b\x7bprojectsKey\x7d\x7d.budget"

/-- Five units for the project with the key. -/
def budgeting (projectKey : String) : TableRequest :=
  .set (.str "u1") budgetPath (.num (.int 5)) (.ofList [("projectsKey", projectKey)])

theorem userSchema_plain : ObjectSchema.Throughout userSchema fun f =>
    KeyName.isIndexed f.keyVariable = false ∧ f.custom = none := by
  decide

theorem userSchema_distinct :
    ∀ model, (FieldType.object userSchema).Holds model → (model.fields.map Field.name).Nodup := by
  decide

theorem userSchema_hasSoundDefaults : (FieldType.object userSchema).HasSoundDefaults := by
  intro model held f declared members custom
  rw [(userSchema_plain model held f declared).2] at custom
  cases custom

/-- A project that is there gets a budget, and the user is read as before. -/
theorem budgeting_keeps_readable :
    ∃ t r, (ofSchema "users" "id" userSchema {}).result = .ok t ∧ ObjectSchema.IndexesSelfRefs userSchema ∧
      (∀ model, (FieldType.object userSchema).Holds model → (model.fields.map Field.name).Nodup) ∧
      (FieldType.object userSchema).HasSoundDefaults ∧ userSession.store.coercion.KeepsKinds ∧
      result (t.getRecord (.str "u1")) userSession = .ok r ∧ r.accepted = true ∧
      (budgeting "p1").changesFields = true ∧ (budgeting "p1").IsSafe ∧
      let next := after (t.handle (budgeting "p1")) userSession
      ∃ key record, next.store.find? key = some record ∧
        ¬ LacksOn (t.ways (budgeting "p1")) (.object userSchema) record ∧
        ∃ s, result (t.getRecord (.str "u1")) next = .ok s ∧ s.accepted = true := by
  have run : (ofSchema "users" "id" userSchema {}).result.toOption.any (fun t =>
      (result (t.getRecord (.str "u1")) userSession).toOption.any (fun r => r.accepted) &&
      (result (t.getRecord (.str "u1")) (after (t.handle (budgeting "p1")) userSession)).toOption.any
        fun s => s.accepted) = true := by
    decide
  obtain ⟨t, built, run⟩ := exists_eq_ok_of_any run
  obtain ⟨first, second⟩ := Bool.and_eq_true_iff.1 run
  obtain ⟨r, readable, accepted⟩ := exists_eq_ok_of_any first
  have regular := ObjectSchema.indexesSelfRefs_of_plain fun model held f declared =>
    (userSchema_plain model held f declared).1
  have kinds : userSession.store.coercion.KeepsKinds := Coercion.ofScale_keepsKinds none
  have safe : (budgeting "p1").IsSafe := by
    simp [budgeting, TableRequest.IsSafe, TableRequest.setters]
  obtain ⟨key, record, -, stored, reads, -⟩ :=
    field_changes_keep_readable built regular userSchema_distinct userSchema_hasSoundDefaults kinds readable accepted
      (budgeting "p1") rfl safe
  have again := exists_eq_ok_of_any second
  exact ⟨t, r, built, regular, userSchema_distinct, userSchema_hasSoundDefaults, kinds, readable, accepted, rfl, safe,
    key, record, stored, reads.1 again, again⟩

/-- The refusal of a value, if a request ended with one. -/
def refusal? {α : Type} : Except TableError α → Option ValidationError
  | .error (.validation e) => some e
  | _ => none

theorem eq_error_of_refusal? {α : Type} {x : Except TableError α} {e : ValidationError}
    (refused : refusal? x = some e) : x = .error (.validation e) := by
  unfold refusal? at refused
  split at refused
  · cases refused
    rfl
  · cases refused

/-- The only record of a store, under the key `u1`, is read and accepted. The request is carried out, and then the
record is refused. -/
def Spoils (schema : ObjectSchema) (members : Json.Members) (request : TableRequest) (e : ValidationError) : Prop :=
  let session : Session MemoryStore := ⟨(MemoryStore.empty .passThrough).put ⟨"id", .str "u1"⟩ members, []⟩
  ∃ t, (ofSchema "rows" "id" schema {}).result = .ok t ∧
    (∃ r, result (t.getRecord (.str "u1")) session = .ok r ∧ r.accepted = true) ∧
    (∃ reply, result (t.handle request) session = .ok reply) ∧
    result (t.getRecord (.str "u1")) (after (t.handle request) session) = .error (.validation e)

theorem spoils_of_run {schema : ObjectSchema} {members : Json.Members} {request : TableRequest}
    {e : ValidationError}
    (run :
      let session : Session MemoryStore := ⟨(MemoryStore.empty .passThrough).put ⟨"id", .str "u1"⟩ members, []⟩
      (ofSchema "rows" "id" schema {}).result.toOption.any (fun t =>
        (result (t.getRecord (.str "u1")) session).toOption.any (fun r => r.accepted) &&
        (result (t.handle request) session).isOk &&
        decide (refusal? (result (t.getRecord (.str "u1")) (after (t.handle request) session)) = some e)) = true) :
    Spoils schema members request e := by
  obtain ⟨t, built, run⟩ := exists_eq_ok_of_any run
  simp only [Bool.and_eq_true, decide_eq_true_eq] at run
  obtain ⟨⟨before, ended⟩, refused⟩ := run
  exact ⟨t, built, exists_eq_ok_of_any before, exists_eq_ok_of_isOk ended, eq_error_of_refusal? refused⟩

/-- The default of a home has a street that is no string. -/
def homeSchema : ObjectSchema :=
  let address : ObjectSchema :=
    ⟨"Address", none,
      [Field.plain "city" FieldType.string, { Field.plain "street" FieldType.string with required := true }]⟩
  ⟨"User", none,
    [{ Field.plain "id" FieldType.string with required := true },
      { Field.plain "home" (.object address) with custom := some (.obj [("street", .num (.int 5))]) }]⟩

/-- The items declare one name twice, first as an optional field and then as a required one. -/
def itemsSchema : ObjectSchema :=
  let item : ObjectSchema :=
    ⟨"Item", none, [Field.plain "x" FieldType.string, { Field.plain "x" FieldType.string with required := true }]⟩
  ⟨"Row", none,
    [{ Field.plain "id" FieldType.string with required := true },
      Field.plain "items" (.list (some (.object item)))]⟩

/-- The items of an indexed collection of two levels hold an object, not the collection again. -/
def slotsSchema : ObjectSchema :=
  let inner : ObjectSchema := ⟨"Inner", none, [{ Field.plain "a" FieldType.string with required := true }]⟩
  let slot : ObjectSchema := ⟨"Slot", none, [Field.plain "slots" (.object inner)]⟩
  ⟨"Row", none,
    [{ Field.plain "id" FieldType.string with required := true },
      { Field.plain "slots" (.dict .string (.object slot)) with
        keyName := some "slot\x7bi\x7d"
        maxNestedDepth := some 2 }]⟩

/-- A project that is made for its budget has no name, and a user whose id is removed has none. Where the schema is
not as the general statement asks for, a record is also lost to a level made from an unsound default, to an item
that was accepted by the first of two declarations, and to an object written as an item of a second level. -/
theorem field_changes_lose_required :
    Spoils userSchema [("id", .str "u1")] (budgeting "p2") (.missing (.missing "projects.p2.name")) ∧
    Spoils userSchema [("id", .str "u1")] (.remove (.str "u1") "id" ∅) (.missing (.missing "id")) ∧
    Spoils homeSchema [("id", .str "u1")] (.set (.str "u1") "home.city" (.str "Rome") ∅)
      (.invalid (.ofType "home.street" "string" "int")) ∧
    Spoils itemsSchema [("id", .str "u1")]
      (.set (.str "u1") "items" (.arr [.obj [("x", .num (.int 5))]]) ∅) (.missing (.missing "items[0].x")) ∧
    Spoils slotsSchema [("id", .str "u1")]
      (.set (.str "u1") "slots.\x7b\x7bslot0\x7d\x7d.slots.\x7b\x7bslot1\x7d\x7d" (.obj [])
        (.ofList [("slot0", "s"), ("slot1", "a")])) (.invalid (.ofType "slots.s.slots.a" "string" "object")) := by
  refine ⟨?level, ?removal, ?default, ?declarations, ?indexed⟩
  all_goals
    refine spoils_of_run ?_
    decide +kernel

end Table

end DocSchema
