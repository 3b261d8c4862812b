import DocSchema.Proofs.Table.FieldRoundTrip
import DocSchema.Proofs.Table.RecordRoundTrip
import DocSchema.Proofs.Validation.Positions

/-!
# Records and fields below a base

A schema may be compiled below a base, a path of literal keys. The paths of its fields then start with the base,
while a whole record is stored as the schema describes it, from the root of the document on. So a field that was put
with a record is read back at the place where it was put if the base is the root, and only there.
-/

namespace DocSchema

open DocSchema.Action

namespace Path

theorem isLiteral_pathIn {p : Path} (literal : p.IsLiteral) (owner : ObjectSchema) (f : FieldDecl) :
    (f.pathIn owner p).IsLiteral := by
  intro s member
  rcases List.mem_append.1 member with above | last
  · exact literal s above
  · cases List.mem_singleton.1 last
    rfl

theorem keys_pathIn (p : Path) (owner : ObjectSchema) (f : FieldDecl) :
    (f.pathIn owner p).keys = p.keys ++ [f.name] :=
  List.map_append

end Path

namespace Table

variable {name primaryKey : String} {schema : ObjectSchema} {t : Table} {c : Compiler} {base : Path}
  {compiled : CompiledSchema}

/-- A top-level field is registered below the base, under the text of its path. -/
theorem descriptor?_of_field? (success : (c.compileAt name schema base).result = .ok compiled)
    (built : ofCompiled primaryKey compiled = .ok t) (room : base.depth < Path.maxDepth) {field : String}
    {d : FieldDescriptor} (found : compiled.field? field = some d) :
    t.descriptor? d.pathText = some d ∧
      ∃ f, schema.find? field = some f ∧ d = f.place name schema base := by
  cases ofCompiled_ok built
  rw [Compiler.field?_eq success room] at found
  obtain ⟨f, declared, rfl⟩ := Option.map_eq_some_iff.1 found
  have depth : (f.place name schema base).path.depth = base.depth + 1 := f.depth_pathIn schema base
  refine ⟨(Compiler.get?_registry_iff_isPlace rfl success _ _).2 ⟨?_, rfl, by omega⟩, f, declared, rfl⟩
  exact .field .schema (Model.mem_of_find? declared)

/-- What is read of a stored record lies under the keys of the path, and is validated by the descriptor there. -/
theorem result_get_of_found {session : Session MemoryStore} {keyValue record : Json} {path : String}
    {d : FieldDescriptor} {key : RecordKey} (registered : t.descriptor? path = some d) (literal : d.path.IsLiteral)
    (start : d.path.steps ≠ []) (depth : d.path.depth ≤ Path.maxDepth)
    (checked : (t.checkKey session.store.coercion t.primaryKey keyValue).result = .ok key)
    (found : session.store.find? key = some record) (args : Arguments) :
    result (t.get keyValue path args) session =
      match record.at? d.path.keys with
      | some v => (d.validate session.store.coercion v).result.mapError .validation
      | none => .ok .empty := by
  have bound : ∀ name ∈ d.path.variableNames, ∃ key, args.get? name = some key := by
    rw [Path.variableNames_of_isLiteral literal]
    nofun
  have resolved := resolve_of_bound registered bound start depth
  have stored := MemoryStore.getField_under found start args
  rw [Path.map_keyUnder_of_isLiteral literal] at stored
  generalize record.at? d.path.keys = field at stored ⊢
  cases field <;> exact result_get resolved checked stored

/-- The read of a top-level field looks below the base of the schema. -/
theorem result_get_of_field? (success : (c.compileAt name schema base).result = .ok compiled)
    (built : ofCompiled primaryKey compiled = .ok t) (literal : base.IsLiteral) (room : base.depth < Path.maxDepth)
    {session : Session MemoryStore} {given record : Json} {key : RecordKey}
    (checked : (t.checkKey session.store.coercion t.primaryKey given).result = .ok key)
    (found : session.store.find? key = some record) {field : String} {d : FieldDescriptor}
    (described : compiled.field? field = some d) :
    result (t.get given d.pathText ∅) session =
      match record.at? (base.keys ++ [field]) with
      | some v => (d.validate session.store.coercion v).result.mapError .validation
      | none => .ok .empty := by
  obtain ⟨registered, f, declared, rfl⟩ := descriptor?_of_field? success built room described
  have named : f.name = field := by simpa using List.find?_some declared
  have depth : (f.place name schema base).path.depth = base.depth + 1 := f.depth_pathIn schema base
  have start : (f.place name schema base).path.steps ≠ [] :=
    List.append_ne_nil_of_right_ne_nil _ (List.cons_ne_nil _ _)
  rw [← named, ← Path.keys_pathIn base schema f]
  exact result_get_of_found registered (Path.isLiteral_pathIn literal schema f) start (by omega) checked found ∅

/-- What a validated record keeps under the name of a field passes the descriptor of the field as it is. -/
theorem validate_of_kept (success : (c.compileAt name schema Path.root).result = .ok compiled)
    (built : ofCompiled primaryKey compiled = .ok t)
    (distinct : ∀ model, (FieldType.object schema).Holds model → (model.fields.map Field.name).Nodup)
    {entries kept : Json.Members} {dropped : List Mismatch} (sorted : Assoc.Sorted entries)
    (validated : (compiled.record.validate .passThrough (.obj entries)).result = .ok ⟨some (.obj kept), dropped⟩)
    {field : String} {v : Json} (member : Assoc.get? field kept = some v) :
    ∃ d, compiled.field? field = some d ∧ (d.validate .passThrough v).result = .ok ⟨some v, []⟩ := by
  have room : Path.root.depth < Path.maxDepth := by decide
  rw [FieldDescriptor.validate_result] at validated
  obtain ⟨value, f, ws, -, declared, accepted⟩ := Validator.member_of_kept sorted validated member
  obtain ⟨_, _, _, shape⟩ := Compiler.compileAt_ok success
  rw [show compiled.schema = schema by rw [shape]] at declared accepted
  have described : compiled.field? field = some (f.place name schema Path.root) := by
    rw [Compiler.field?_eq success room, declared]
    rfl
  have registered := (descriptor?_of_field? success built room described).1
  refine ⟨_, described, ?_⟩
  rw [FieldDescriptor.validate_result]
  exact Validator.check_again (show (Coercion.ofScale none).Idempotent from Coercion.passThrough_idempotent)
    (fun model inside => distinct model (holds_of_registered success built registered inside)) accepted _ _

/-- Whole records lie at the root of a document, and fields below the base of the schema. In a table of a schema
that was compiled below a base of literal keys, over a store that leaves numbers alone: a record that is put is
stored as it was validated, under its primary key. The read of a top-level field by that key then gives what is
stored under the keys of the base and the name of the field, validated by the descriptor of the field, or nothing if
nothing is stored there. If the base is the root, it gives each field that the validated record kept, without a
warning. -/
theorem putRecord_get (success : (c.compileAt name schema base).result = .ok compiled)
    (built : ofCompiled primaryKey compiled = .ok t) (literal : base.IsLiteral) (room : base.depth < Path.maxDepth)
    (distinct : ∀ model, (FieldType.object schema).Holds model → (model.fields.map Field.name).Nodup)
    (session : Session MemoryStore) (numbers : session.store.coercion = .passThrough) (record : Json)
    (ordered : record.Ordered) (dropped : List Mismatch)
    (put : result (t.putRecord record) session = .ok dropped) :
    let next := after (t.putRecord record) session
    ∃ given kept, record.member? primaryKey = some given ∧
      (compiled.validateRecord .passThrough record).result = .ok ⟨some (.obj kept), dropped⟩ ∧
      next.store.find? ⟨primaryKey, given⟩ = some (.obj kept) ∧
      (∀ field d, compiled.field? field = some d →
        result (t.get given d.pathText ∅) next =
          match (Json.obj kept).at? (base.keys ++ [field]) with
          | some v => (d.validate .passThrough v).result.mapError .validation
          | none => .ok .empty) ∧
      (base = Path.root → ∀ field v, Assoc.get? field kept = some v → ∃ d, compiled.field? field = some d ∧
        result (t.get given d.pathText ∅) next = .ok ⟨some v, []⟩) := by
  intro next
  obtain ⟨given, kept, key, present, validated, keyed, stored⟩ := putRecord_ok put
  obtain ⟨-, -, member⟩ := keyOfRecord_ok keyed
  obtain ⟨members, rfl, written⟩ := MemoryStore.putRecord_ok member stored
  cases ofCompiled_ok built
  rw [numbers] at validated
  cases record with
  | obj entries =>
    have checked := checkKey_of_validated success room (.of_ordered ordered) validated keyed present
    have store : next.store = session.store.put key members := written
    have hook : next.store.coercion = .passThrough := by
      rw [store]
      exact numbers
    have found : next.store.find? key = some (.obj members) := by
      rw [store, MemoryStore.find?_put_self]
    have keyed : key = ⟨primaryKey, given⟩ := by
      obtain ⟨named, -⟩ := checkKey_ok checked
      have value := (value_of_checkKey checked).trans given.coerce_passThrough
      obtain ⟨keyName, keyValue⟩ := key
      exact congr (congrArg RecordKey.mk named) value
    have reads : ∀ field d, compiled.field? field = some d → _ := fun field d described =>
      result_get_of_field? success built literal room (hook ▸ checked) found described
    rw [hook] at reads
    refine ⟨given, members, present, validated, keyed ▸ found, reads, ?_⟩
    -- The record is stored at the root of the document, where only a path without a base leads.
    rintro rfl field v inside
    obtain ⟨d, described, again⟩ := validate_of_kept success built distinct (.of_ordered ordered) validated inside
    have placed : (Json.obj members).at? (Path.root.keys ++ [field]) = some v := by
      change (Assoc.get? field members).bind _ = some v
      rw [inside]
      rfl
    refine ⟨d, described, (reads field d described).trans ?_⟩
    rw [placed]
    exact congrArg (Except.mapError TableError.validation) again
  | _ => cases present

/-- Below the step `data`. -/
def dataBase : Path :=
  Path.root.child (.literal "data" .map)

theorem dataBase_isLiteral : dataBase.IsLiteral := by
  intro s member
  cases List.mem_singleton.1 member
  rfl

/-- The name of a client who was put is read back in a table that was compiled at the root. Below the step `data` the
same read finds nothing in the same record. -/
theorem client_putRecord_get :
    let client : Json.Members := [("id", .str "c1"), ("name", .str "Ann")]
    let session : Session MemoryStore := ⟨MemoryStore.empty .passThrough, []⟩
    (Json.obj client).Ordered ∧
    (∀ model, (FieldType.object clientSchema).Holds model → (model.fields.map Field.name).Nodup) ∧
    (∃ compiled t, (Compiler.standard.compileAt "clients" clientSchema Path.root).result = .ok compiled ∧
      ofCompiled "id" compiled = .ok t ∧ Path.root.IsLiteral ∧ Path.root.depth < Path.maxDepth ∧
      result (t.putRecord (.obj client)) session = .ok [] ∧
      (compiled.validateRecord .passThrough (.obj client)).result = .ok ⟨some (.obj client), []⟩ ∧
      ∃ given, (Json.obj client).member? "id" = some given ∧ ∃ d, compiled.field? "name" = some d ∧
        result (t.get given d.pathText ∅) (after (t.putRecord (.obj client)) session) =
          .ok ⟨some (.str "Ann"), []⟩) ∧
    ∃ compiled t, (Compiler.standard.compileAt "clients" clientSchema dataBase).result = .ok compiled ∧
      ofCompiled "id" compiled = .ok t ∧ dataBase.IsLiteral ∧ dataBase.depth < Path.maxDepth ∧
      result (t.putRecord (.obj client)) session = .ok [] ∧
      (compiled.validateRecord .passThrough (.obj client)).result = .ok ⟨some (.obj client), []⟩ ∧
      ∃ given, (Json.obj client).member? "id" = some given ∧ ∃ d, compiled.field? "name" = some d ∧
        result (t.get given d.pathText ∅) (after (t.putRecord (.obj client)) session) = .ok .empty := by
  intro client session
  have ordered : (Json.obj client).Ordered := by
    refine .obj (List.pairwise_pair.2 (by decide)) fun name v member => ?_
    rcases List.mem_cons.1 member with here | member
    · cases here
      exact .str _
    · cases List.mem_singleton.1 member
      exact .str _
  have run : ∀ base ∈ [Path.root, dataBase],
      (Compiler.standard.compileAt "clients" clientSchema base).result.toOption.any (fun compiled =>
        (compiled.field? "name").isSome && (ofCompiled "id" compiled).toOption.any fun t =>
          decide ((result (t.putRecord (.obj client)) session).toOption = some []) &&
          decide ((after (t.putRecord (.obj client)) session).store.find? ⟨"id", .str "c1"⟩ =
            some (.obj client))) = true := by
    decide
  refine ⟨ordered, clientSchema_distinct, ?_, ?_⟩
  · obtain ⟨compiled, success, passed⟩ := exists_eq_ok_of_any (run Path.root (by simp))
    rw [Bool.and_eq_true] at passed
    obtain ⟨t, built, passed⟩ := exists_eq_ok_of_any passed.2
    simp only [Bool.and_eq_true, decide_eq_true_eq] at passed
    have put := eq_ok_of_toOption passed.1
    have literal : Path.root.IsLiteral := nofun
    obtain ⟨given, kept, ⟨⟩, validated, stored, -, back⟩ := putRecord_get success built literal (by decide)
      clientSchema_distinct session rfl (.obj client) ordered [] put
    cases stored.symm.trans passed.2
    exact ⟨compiled, t, success, built, literal, by decide, put, validated, _, rfl, back rfl "name" (.str "Ann") rfl⟩
  · obtain ⟨compiled, success, passed⟩ := exists_eq_ok_of_any (run dataBase (by simp))
    rw [Bool.and_eq_true] at passed
    obtain ⟨d, described⟩ := Option.isSome_iff_exists.1 passed.1
    obtain ⟨t, built, passed⟩ := exists_eq_ok_of_any passed.2
    simp only [Bool.and_eq_true, decide_eq_true_eq] at passed
    have put := eq_ok_of_toOption passed.1
    obtain ⟨given, kept, ⟨⟩, validated, stored, reads, -⟩ := putRecord_get success built dataBase_isLiteral (by decide)
      clientSchema_distinct session rfl (.obj client) ordered [] put
    cases stored.symm.trans passed.2
    exact ⟨compiled, t, success, built, dataBase_isLiteral, by decide, put, validated, _, rfl, d, described,
      reads "name" d described⟩

/-- Below the step `data` the name of a client is stored with the record, and the read of its path finds nothing. -/
theorem field_of_record_missed_below_base :
    let client : Json.Members := [("id", .str "c1"), ("name", .str "Ann")]
    let session : Session MemoryStore := ⟨MemoryStore.empty .passThrough, []⟩
    dataBase.IsLiteral ∧ dataBase.depth = 1 ∧
    (∀ model, (FieldType.object clientSchema).Holds model → (model.fields.map Field.name).Nodup) ∧
    ∃ compiled t d, (Compiler.standard.compileAt "clients" clientSchema dataBase).result = .ok compiled ∧
      ofCompiled "id" compiled = .ok t ∧ compiled.field? "name" = some d ∧ d.pathText = "data.name" ∧
      result (t.putRecord (.obj client)) session = .ok [] ∧
      let next := after (t.putRecord (.obj client)) session
      next.store.find? ⟨"id", .str "c1"⟩ = some (.obj client) ∧ Assoc.get? "name" client = some (.str "Ann") ∧
        result (t.get (.str "c1") d.pathText ∅) next = .ok .empty ∧
        result (t.get (.str "c1") d.pathText ∅) next ≠ .ok ⟨some (.str "Ann"), []⟩ := by
  intro client session
  have run : (Compiler.standard.compileAt "clients" clientSchema dataBase).result.toOption.any (fun compiled =>
      (ofCompiled "id" compiled).toOption.any fun t => (compiled.field? "name").any fun d =>
        let next := after (t.putRecord (.obj client)) session
        decide (d.pathText = "data.name") &&
        decide ((result (t.putRecord (.obj client)) session).toOption = some []) &&
        decide (next.store.find? ⟨"id", .str "c1"⟩ = some (.obj client)) &&
        decide ((result (t.get (.str "c1") d.pathText ∅) next).toOption = some .empty)) = true := by
    decide
  obtain ⟨compiled, success, passed⟩ := exists_eq_ok_of_any run
  obtain ⟨t, built, passed⟩ := exists_eq_ok_of_any passed
  obtain ⟨d, described, passed⟩ := (Option.any_eq_true _ _).1 passed
  simp only [Bool.and_eq_true, decide_eq_true_eq] at passed
  obtain ⟨⟨⟨path, put⟩, stored⟩, nothing⟩ := passed
  have read := eq_ok_of_toOption nothing
  refine ⟨dataBase_isLiteral, rfl, clientSchema_distinct, compiled, t, d, success, built, described, path,
    eq_ok_of_toOption put, stored, rfl, read, fun other => ?_⟩
  cases read.symm.trans other

end Table

end DocSchema
