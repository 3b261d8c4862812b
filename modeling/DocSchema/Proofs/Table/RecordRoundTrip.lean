import DocSchema.Proofs.Json.Canonical
import DocSchema.Proofs.Store.Records
import DocSchema.Proofs.Table.Outcome
import DocSchema.Proofs.Table.Resolution
import DocSchema.Proofs.Validation.Idempotence

/-!
# Records put and read back

A record that was put is read back as it was validated. Its key is found again, because a key is checked alike as a
member of the record and on its own, and what is stored passes the validation of a read as it is.
-/

namespace DocSchema

open DocSchema.Action

namespace Table

variable {name primaryKey : String} {schema : ObjectSchema} {config : EngineConfig} {t : Table}

/-- The key of a validated record comes from the member that was given for it, by the declaration of the primary
key. -/
theorem check_of_keyOfRecord {coercion : Coercion} {members kept : Json.Members} {dropped : List Mismatch}
    {key : RecordKey} {given : Json} (sorted : Assoc.Sorted members)
    (validated : (t.compiled.record.validate coercion (.obj members)).result = .ok ⟨some (.obj kept), dropped⟩)
    (keyed : t.keyOfRecord given (.obj kept) = .ok key) (present : Assoc.get? t.primaryKey members = some given) :
    ∃ f place ws, t.compiled.schema.find? t.primaryKey = some f ∧
      (Validator.check coercion (f.type.within t.compiled.schema) f.required place given).result =
        .ok ⟨some key.value, ws⟩ := by
  obtain ⟨named, -, member⟩ := keyOfRecord_ok keyed
  rw [FieldDescriptor.validate_result] at validated
  obtain ⟨v, f, ws, inside, found, checked⟩ := Validator.member_of_kept sorted validated member
  rw [named, present] at inside
  cases inside
  exact ⟨f, _, ws, named ▸ found, checked⟩

section Compiled

variable {c : Compiler} {base : Path}

/-- What the declaration of a field makes of a value is a key, if it is a string or a number. -/
theorem checkKey_of_check (success : (c.compileAt name schema base).result = .ok t.compiled)
    (room : base.depth < Path.maxDepth) {coercion : Coercion} {keyName : String} {f : FieldDecl}
    (found : schema.find? keyName = some f) {value w : Json} (scalar : w.isKey = true)
    (accepted : ∀ place,
      (Validator.check coercion (f.typeIn schema) false place value).result = .ok ⟨some w, []⟩) :
    (t.checkKey coercion keyName value).result = .ok ⟨keyName, w⟩ := by
  have described : t.compiled.fields.find? (fun d => d.name = keyName) = some (f.place name schema base) := by
    refine (Compiler.field?_eq success room keyName).trans ?_
    rw [found]
    rfl
  have validated : (FieldDescriptor.validate { f.place name schema base with required := false } coercion
      value).result = .ok ⟨some w, []⟩ := by
    rw [FieldDescriptor.validate_result]
    exact accepted _
  unfold checkKey
  simp only [described]
  refine Traced.bind_ok_iff.2 ⟨⟨some w, []⟩, congrArg (Except.mapError TableError.validation) validated, ?_⟩
  cases w with
  | str s => rfl
  | num n => rfl
  | _ => cases scalar

/-- The key of a validated record is the key that its primary key member gives on its own. -/
theorem checkKey_of_validated (success : (c.compileAt name schema base).result = .ok t.compiled)
    (room : base.depth < Path.maxDepth) {coercion : Coercion} {members kept : Json.Members}
    {dropped : List Mismatch} {key : RecordKey} {given : Json} (sorted : Assoc.Sorted members)
    (validated : (t.compiled.record.validate coercion (.obj members)).result = .ok ⟨some (.obj kept), dropped⟩)
    (keyed : t.keyOfRecord given (.obj kept) = .ok key) (present : Assoc.get? t.primaryKey members = some given) :
    (t.checkKey coercion t.primaryKey given).result = .ok key := by
  obtain ⟨named, scalar, -⟩ := keyOfRecord_ok keyed
  obtain ⟨f, _, _, found, checked⟩ := check_of_keyOfRecord sorted validated keyed present
  rw [schema_of_compileAt success] at found checked
  have accepted := Validator.check_elsewhere checked (Validator.check_isKey checked scalar) false
  rw [checkKey_of_check success room found scalar accepted, ← named]

end Compiled

/-- A validated record passes the validation again as it is. -/
theorem validateRecord_again (built : (ofSchema name primaryKey schema config).result = .ok t)
    (distinct : ∀ model, (FieldType.object schema).Holds model → (model.fields.map Field.name).Nodup)
    {scale : Option Nat} (idempotent : (Coercion.ofScale scale).Idempotent) {record kept : Json}
    {dropped : List Mismatch}
    (validated : (t.compiled.validateRecord (.ofScale scale) record).result = .ok ⟨some kept, dropped⟩) :
    (t.compiled.validateRecord (.ofScale scale) kept).result = .ok ⟨some kept, []⟩ := by
  unfold CompiledSchema.validateRecord at validated ⊢
  rw [FieldDescriptor.validate_result] at validated ⊢
  rw [← compiled_schema built] at distinct
  exact Validator.check_again idempotent distinct validated _ _

/-- A record that was put is read back by its primary key as it was validated, without a warning, and every record
under another id is as before. The names in every object model are distinct, and the store leaves numbers alone or
rounds them once and for all. -/
theorem putRecord_getRecord (built : (ofSchema name primaryKey schema config).result = .ok t)
    (distinct : ∀ model, (FieldType.object schema).Holds model → (model.fields.map Field.name).Nodup)
    (session : Session MemoryStore)
    (numbers : session.store.coercion = .passThrough ∨
      ∃ scale, session.store.coercion = .fixedPoint scale ∧ (Coercion.fixedPoint scale).Idempotent)
    (record : Json) (ordered : record.Ordered) (dropped : List Mismatch)
    (success : result (t.putRecord record) session = .ok dropped) :
    let coercion := session.store.coercion
    let next := after (t.putRecord record) session
    ∃ given kept key, record.member? primaryKey = some given ∧
      (t.compiled.validateRecord coercion record).result = .ok ⟨some kept, dropped⟩ ∧
      Pruned Validator.rootField (record.coerce coercion) kept dropped ∧
      (t.checkKey coercion primaryKey given).result = .ok key ∧
      result (t.getRecord given) next = .ok ⟨some kept, []⟩ ∧
      ∀ id, id ≠ key.id → next.store.records.get? id = session.store.records.get? id := by
  intro coercion next
  obtain ⟨scale, same, idempotent⟩ :
      ∃ scale, session.store.coercion = .ofScale scale ∧ (Coercion.ofScale scale).Idempotent := by
    rcases numbers with same | ⟨scale, same, idempotent⟩
    · exact ⟨none, same, Coercion.passThrough_idempotent⟩
    · exact ⟨some scale, same, idempotent⟩
  obtain ⟨rfl, compiled⟩ := ofSchema_ok built
  obtain ⟨given, kept, key, present, validated, keyed, stored⟩ := putRecord_ok success
  obtain ⟨-, -, member⟩ := keyOfRecord_ok keyed
  obtain ⟨members, rfl, put⟩ := MemoryStore.putRecord_ok member stored
  cases record with
  | obj entries =>
    have checked := checkKey_of_validated compiled (by decide) (.of_ordered ordered) validated keyed present
    have whole := validated
    rw [FieldDescriptor.validate_result] at whole
    refine ⟨given, .obj members, key, present, validated, ?_, checked, ?_, fun id other => ?_⟩
    · exact Validator.check_prunes _ _ _ whole
    · have store : next.store = session.store.put key members := put
      have found : next.store.find? key = some (.obj members) := by
        rw [store, MemoryStore.find?_put_self]
      have hook : next.store.coercion = session.store.coercion := by
        rw [store]
        rfl
      rw [result_getRecord (hook ▸ checked) found, hook, same]
      rw [same] at validated
      exact congrArg (Except.mapError TableError.validation)
        (validateRecord_again built distinct idempotent validated)
    · rw [put]
      exact SortedMap.get?_insert_of_ne _ other.symm _
  | _ => cases present

theorem clientSchema_distinct :
    ∀ model, (FieldType.object clientSchema).Holds model → (model.fields.map Field.name).Nodup := by
  decide

/-- A client whose name is no text is put without the name, read back so, and leaves the other client alone. -/
theorem nameless_putRecord_getRecord :
    let record : Json := .obj [("id", .str "c2"), ("name", .num (.int 5))]
    let dropped := [Mismatch.ofType "name" "string" "int"]
    ∃ t, (ofSchema "clients" "id" clientSchema {}).result = .ok t ∧
      (∀ model, (FieldType.object clientSchema).Holds model → (model.fields.map Field.name).Nodup) ∧
      record.Ordered ∧ result (t.putRecord record) clientSession = .ok dropped ∧
      ∃ given kept key, record.member? "id" = some given ∧
        (t.compiled.validateRecord .passThrough record).result = .ok ⟨some kept, dropped⟩ ∧
        (t.checkKey .passThrough "id" given).result = .ok key ∧
        result (t.getRecord given) (after (t.putRecord record) clientSession) = .ok ⟨some kept, []⟩ ∧
        ∀ id, id ≠ key.id →
          (after (t.putRecord record) clientSession).store.records.get? id = clientSession.store.records.get? id := by
  intro record dropped
  have ordered : record.Ordered := by
    refine .obj (List.pairwise_pair.2 (by decide)) fun name v member => ?_
    rcases List.mem_cons.1 member with here | member
    · cases here
      exact .str _
    · cases List.mem_singleton.1 member
      exact .num _
  have run : (ofSchema "clients" "id" clientSchema {}).result.toOption.any (fun t =>
      decide ((result (t.putRecord record) clientSession).toOption = some dropped)) = true := by
    decide
  obtain ⟨t, built, put⟩ := exists_eq_ok_of_any run
  have success := eq_ok_of_toOption (of_decide_eq_true put)
  obtain ⟨given, kept, key, present, validated, -, checked, back, others⟩ :=
    putRecord_getRecord built clientSchema_distinct clientSession (.inl rfl) record ordered dropped success
  exact ⟨t, built, clientSchema_distinct, ordered, success, given, kept, key, present, validated, checked, back,
    others⟩

end Table

end DocSchema
