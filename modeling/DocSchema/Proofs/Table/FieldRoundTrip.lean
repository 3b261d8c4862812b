import DocSchema.Proofs.Schema.Typing
import DocSchema.Proofs.Store.Steps
import DocSchema.Proofs.Table.Batches
import DocSchema.Proofs.Table.CleanReads
import DocSchema.Proofs.Table.Resolution
import DocSchema.Proofs.Validation.Idempotence

/-!
# Fields set and read back

A field that was set is read back as it was validated, through all levels that the write has made on the way. A
value that is rejected changes nothing.
-/

namespace DocSchema

open DocSchema.Action

namespace MemoryStore

variable {s s' : MemoryStore} {key : RecordKey} {p : Path} {value : Json}

/-- The field that an update of one path has written is stored there. -/
theorem getField_of_setFields (written : s.setFields key [(p, value)] = .ok s') :
    s'.getField key p = .ok (some value) := by
  obtain ⟨before, record, -, applied, rfl⟩ := setFields_ok written
  obtain ⟨_, wrote, ⟨⟩⟩ := Traced.except_bind_ok_iff.1 applied
  have entered : p.isRoot = false := by
    obtain ⟨steps⟩ := p
    cases steps with
    | nil => cases wrote
    | cons s rest => rfl
  have found : (s.put key record).find? key = some (.obj record) := find?_put_self s key record
  simp only [getField, entered, found]
  exact Json.readSteps_of_writeSteps wrote

end MemoryStore

namespace Table

variable {name primaryKey : String} {schema : ObjectSchema} {t : Table}

/-- The models in the type of a registered place belong to the schema of the table, wherever it was compiled. -/
theorem holds_of_registered {c : Compiler} {base : Path} {compiled : CompiledSchema}
    (success : (c.compileAt name schema base).result = .ok compiled)
    (built : ofCompiled primaryKey compiled = .ok t) {path : String} {d : FieldDescriptor}
    (registered : t.descriptor? path = some d) {model : ObjectSchema} (inside : d.type.Holds model) :
    (FieldType.object schema).Holds model := by
  cases ofCompiled_ok built
  exact ((Compiler.get?_registry_iff_isPlace rfl success path d).1 registered).1.holds inside

/-- In a table of a schema compiled anywhere, whose object models have distinct names: if a field is set and the
value applied, the same read on the store that is left gives what was validated, without a warning; if the value
is rejected, the store is as before. The store leaves numbers alone or rounds them once and for all, and may hold
any records. -/
theorem set_get {c : Compiler} {base : Path} {compiled : CompiledSchema}
    (success : (c.compileAt name schema base).result = .ok compiled)
    (built : ofCompiled primaryKey compiled = .ok t)
    (distinct : ∀ model, (FieldType.object schema).Holds model → (model.fields.map Field.name).Nodup)
    (session : Session MemoryStore)
    (numbers : session.store.coercion = .passThrough ∨
      ∃ scale, session.store.coercion = .fixedPoint scale ∧ (Coercion.fixedPoint scale).Idempotent)
    (keyValue : Json) (path : String) (value : Json) (args : Arguments) (report : WriteReport)
    (ended : result (t.set keyValue path value args) session = .ok report) :
    let next := after (t.set keyValue path value args) session
    (path ∈ report.applied → ∃ d w ws, t.descriptor? path = some d ∧
      (d.validate session.store.coercion value).result = .ok ⟨some w, ws⟩ ∧
      result (t.get keyValue path args) next = .ok ⟨some w, []⟩) ∧
    (path ∈ report.rejected → next.store = session.store) ∧
    (report.applied = [path] ∧ report.rejected = [] ∨ report.applied = [] ∧ report.rejected = [path]) := by
  intro next
  obtain ⟨scale, same, idempotent⟩ := Coercion.exists_scale numbers
  obtain ⟨prepared, key, ready, checked, written, rfl⟩ := setMany_ok_iff.1 ⟨ended, rfl⟩
  have told := reports_of_prepareAll ready
  cases update : t.update? session.store.coercion (.checked ⟨path, value, args⟩) with
  | none =>
    have updates : prepared.updates = [] := by simpa [update] using told.updates
    have applied : prepared.report.applied = [] := by simpa [update] using told.applied
    have rejected : prepared.report.rejected = [path] := by simpa [update, Setter.path] using told.rejected
    rw [updates] at written
    have unchanged : session.store = next.store := Except.ok.inj written
    exact ⟨by simp [applied], fun _ => unchanged.symm, .inr ⟨applied, rejected⟩⟩
  | some u =>
    obtain ⟨p, w⟩ := u
    have updates : prepared.updates = [(p, w)] := by simpa [update] using told.updates
    have applied : prepared.report.applied = [path] := by simpa [update, Setter.path] using told.applied
    have rejected : prepared.report.rejected = [] := by simpa [update] using told.rejected
    rw [updates] at written
    obtain ⟨d, ws, resolved, validated⟩ := update?_checked_eq_some update
    have hook : next.store.coercion = session.store.coercion := MemoryStore.update_coercion written
    have stored : next.store.getField key p = .ok (some w) := MemoryStore.getField_of_setFields written
    have registered : t.descriptor? path = some d := (resolve_ok resolved).1
    have again : (d.validate next.store.coercion w).result = .ok ⟨some w, []⟩ := by
      rw [FieldDescriptor.validate_result, same] at validated
      rw [FieldDescriptor.validate_result, hook, same]
      exact Validator.check_again idempotent
        (fun model inside => distinct model (holds_of_registered success built registered inside)) validated _ _
    have back : result (t.get keyValue path args) next = .ok ⟨some w, []⟩ := by
      rw [result_get resolved (hook ▸ checked) stored]
      exact congrArg (Except.mapError TableError.validation) again
    exact ⟨fun _ => ⟨d, w, ws, registered, validated, back⟩, by simp [rejected], .inl ⟨applied, rejected⟩⟩

/-! Rankings that lie below the item of a collection of seasons. -/

open FieldDescriptor (rankedSchema)

def seasonBase : Path :=
  (Path.root.child (.literal "seasons" .map)).child (.placeholder "season" .map)

/-- Of two ranks one has a key that is no integer. It is dropped when the ranks are set, below levels that the
write makes, and the other one is read back. -/
theorem seasonRanks_set_get :
    let path := "seasons.\x7b\x7bseason\x7d\x7d.ranks"
    let ranks : Json := .obj [("1", .num (.int 10)), ("two", .num (.int 20))]
    let args : Arguments := .ofList [("season", "s1")]
    let session : Session MemoryStore := ⟨MemoryStore.empty .passThrough, []⟩
    ∃ compiled t report, (Compiler.standard.compileAt "ranked" rankedSchema seasonBase).result = .ok compiled ∧
      ofCompiled "title" compiled = .ok t ∧
      (∀ model, (FieldType.object rankedSchema).Holds model → (model.fields.map Field.name).Nodup) ∧
      result (t.set (.str "t") path ranks args) session = .ok report ∧ path ∈ report.applied ∧
      report.isComplete = false ∧
      ∃ d w ws, t.descriptor? path = some d ∧ (d.validate .passThrough ranks).result = .ok ⟨some w, ws⟩ ∧
        result (t.get (.str "t") path args) (after (t.set (.str "t") path ranks args) session) =
          .ok ⟨some w, []⟩ := by
  intro path ranks args session
  have run : (Compiler.standard.compileAt "ranked" rankedSchema seasonBase).result.toOption.any (fun compiled =>
      (ofCompiled "title" compiled).toOption.any fun t =>
        (result (t.set (.str "t") path ranks args) session).toOption.any fun report =>
          decide (path ∈ report.applied) && !report.isComplete) = true := by
    decide
  obtain ⟨compiled, success, run⟩ := exists_eq_ok_of_any run
  obtain ⟨t, built, run⟩ := exists_eq_ok_of_any run
  obtain ⟨report, ended, run⟩ := exists_eq_ok_of_any run
  simp only [Bool.and_eq_true, decide_eq_true_eq, Bool.not_eq_true'] at run
  obtain ⟨applied, dropped⟩ := run
  have distinct : ∀ model, (FieldType.object rankedSchema).Holds model → (model.fields.map Field.name).Nodup := by
    decide
  have back := (set_get success built distinct session (.inl rfl) (.str "t") path ranks args report ended).1 applied
  exact ⟨compiled, t, report, success, built, distinct, ended, applied, dropped, back⟩

end Table

end DocSchema
