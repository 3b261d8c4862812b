import DocSchema.Proofs.FixedPoint
import DocSchema.Proofs.Schema.Typing
import DocSchema.Proofs.Store.Coerced
import DocSchema.Proofs.Table.Effect
import DocSchema.Proofs.Table.Resolution

/-!
# Stored numbers

Numbers come into a store with checked and raw values, with whole records, with the keys of new records and with the
levels that a write makes. All but the last go through the coercion of the store. A level that is made from a custom
default takes the numbers of the default as they were declared.
-/

namespace DocSchema

open DocSchema.Action

namespace Table

variable {name primaryKey : String} {schema : ObjectSchema} {t : Table}

theorem custom_continuationSteps (keys : List String) : ∀ s ∈ continuationSteps keys, s.custom = none := by
  intro s member
  induction keys with
  | nil => cases member
  | cons key rest ih =>
    cases rest with
    | nil =>
      cases List.mem_singleton.1 member
      rfl
    | cons next later =>
      rcases List.mem_cons.1 member with rfl | member
      · rfl
      · exact ih member

/-- The path of a raw setter is a registered path with the steps of the continuation, all variables bound. -/
theorem resolveRaw_ok {s : RawSetter} {p : Path} (success : t.resolveRaw s = .ok p) :
    ∃ d, t.compiled.registry.get? s.basePath = some d ∧
      p = (d.path.extend (continuationSteps s.continuation)).under s.arguments := by
  unfold resolveRaw CompiledSchema.resolve at success
  split at success
  · next d registered =>
    obtain ⟨_, ⟨⟩, success⟩ := Traced.except_bind_ok_iff.1 success
    obtain ⟨_, _, success⟩ := Traced.except_bind_ok_iff.1 success
    exact ⟨d, registered, Path.render_ok success⟩
  · obtain ⟨_, ⟨⟩, _⟩ := Traced.except_bind_ok_iff.1 success

/-- A raw setter writes its value, coerced. -/
theorem prepare_raw_ok {coercion : Coercion} {s : RawSetter} {prepared : PreparedWrite}
    (success : (t.prepare coercion (.raw s)).result = .ok prepared) {u : Path × Json}
    (member : u ∈ prepared.updates) : t.resolveRaw s = .ok u.1 ∧ u.2 = s.value.coerce coercion := by
  unfold prepare at success
  obtain ⟨p, resolved, ⟨⟩⟩ := Traced.bind_ok_iff.1 success
  cases List.mem_singleton.1 member
  exact ⟨eq_ok_of_mapError resolved, rfl⟩

section Registered

variable {c : Compiler} {base : Path} {compiled : CompiledSchema}
  (success : (c.compileAt name schema base).result = .ok compiled)
  (built : ofCompiled primaryKey compiled = .ok t) {coercion : Coercion}
  (defaults : ObjectSchema.Throughout schema fun f => ∀ members, f.custom = some (.obj members) →
    (Json.obj members).coerce coercion = .obj members)
  (baseDefaults : ∀ s ∈ base.steps, s.HasCoercedDefault coercion)
include success built defaults baseDefaults

/-- The defaults along a registered path come from the declarations and from the base. -/
theorem hasCoercedDefault_of_registered {path : String} {d : FieldDescriptor}
    (registered : t.compiled.registry.get? path = some d) : ∀ s ∈ d.path.steps, s.HasCoercedDefault coercion := by
  cases ofCompiled_ok built
  obtain ⟨place, -, -⟩ := (Compiler.get?_registry_iff_isPlace rfl success path d).1 registered
  refine place.forall_steps_below (fun _ _ => nofun) (fun model held f declared _ => ?_) baseDefaults
  exact fun members custom => defaults model held f declared members custom

/-- What a setter writes is coerced, and so are the defaults along its path. -/
theorem coerced_of_prepare (idempotent : coercion.Idempotent) {setter : Setter} {prepared : PreparedWrite}
    (ready : (t.prepare coercion setter).result = .ok prepared) {u : Path × Json} (member : u ∈ prepared.updates) :
    (∀ s ∈ u.1.steps, s.HasCoercedDefault coercion) ∧ u.2.coerce coercion = u.2 := by
  cases setter with
  | checked s =>
    obtain ⟨d, ws, resolved, validated⟩ := prepare_checked_ok ready member
    obtain ⟨registered, path⟩ := resolve_ok resolved
    rw [FieldDescriptor.validate_result] at validated
    refine ⟨?_, Validator.coerce_of_check idempotent validated⟩
    rw [path]
    exact List.forall_mem_map.2 (hasCoercedDefault_of_registered success built defaults baseDefaults registered)
  | raw s =>
    obtain ⟨resolved, value⟩ := prepare_raw_ok ready member
    obtain ⟨d, registered, path⟩ := resolveRaw_ok resolved
    rw [path, value]
    refine ⟨List.forall_mem_map.2 (List.forall_mem_append.2 ⟨?_, ?_⟩), Json.coerce_coerce idempotent _⟩
    · exact hasCoercedDefault_of_registered success built defaults baseDefaults registered
    · intro step continued members custom
      rw [show (step.under s.arguments).custom = step.custom from rfl, custom_continuationSteps _ step continued]
        at custom
      cases custom

/-- Every effect keeps all numbers in the records as the coercion makes them. -/
theorem Effect.keeps_coerced {s s' : MemoryStore} (hook : s.coercion = coercion) (idempotent : coercion.Idempotent)
    {request : TableRequest} (effect : Effect t s request s')
    (coerced : s.Holds fun _ record => record.coerce coercion = record) :
    s'.Holds fun _ record => record.coerce coercion = record := by
  subst hook
  cases effect with
  | stay => exact coerced
  | @write _ _ key _ _ ready checked written =>
    obtain ⟨before, after, start, applied, rfl⟩ := MemoryStore.setFields_ok written
    have begun : (Json.obj before).coerce s.coercion = .obj before := by
      rcases MemoryStore.target_ok start with found | ⟨-, rfl⟩
      · exact coerced _ _ found
      · obtain ⟨-, -, d, ws, -, accepted⟩ := checkKey_ok checked
        refine Json.coerce_obj_iff.2 fun name v member => ?_
        cases List.mem_singleton.1 member
        exact Validator.coerce_of_check idempotent accepted
    refine coerced.put (MemoryStore.coerce_writeAll (fun u member => ?_) begun applied)
    obtain ⟨setter, -, own, prepared, inside⟩ := prepareAll_ok ready member
    exact coerced_of_prepare success built defaults baseDefaults idempotent prepared inside
  | remove resolved checked removed =>
    rcases MemoryStore.removeFields_ok removed with rfl | ⟨before, after, found, applied, rfl⟩
    · exact coerced
    · exact coerced.put (MemoryStore.coerce_removeAll (coerced _ _ found) applied)
  | put validated keyed stored =>
    obtain ⟨-, -, present⟩ := keyOfRecord_ok keyed
    obtain ⟨members, rfl, rfl⟩ := MemoryStore.putRecord_ok present stored
    rw [FieldDescriptor.validate_result] at validated
    exact coerced.put (Validator.coerce_of_check idempotent validated)
  | delete _ => exact coerced.deleteRecord _

/-- In a table of a schema compiled anywhere, over a store that is empty at first and whose coercion leaves alone
what it has made of a number: if the coercion also leaves alone the custom map defaults, those of the schema and
those of the base path, then after every history of requests, raw and failed ones included, it leaves alone every
stored record as a whole. -/
theorem history_keeps_coerced (idempotent : coercion.Idempotent) (log : List LogEntry)
    (requests : List TableRequest) {id : String} {record : Json}
    (stored : (t.serve requests ⟨MemoryStore.empty coercion, log⟩).store.records.get? id = some record) :
    record.coerce coercion = record := by
  let final := (t.serve requests ⟨MemoryStore.empty coercion, log⟩).store
  have kept : final.coercion = coercion ∧ final.Holds fun _ record => record.coerce coercion = record :=
    serve_induction (P := fun s => s.coercion = coercion ∧ s.Holds fun _ record => record.coerce coercion = record)
      (fun request _ session before =>
        have effect := effect_handle t request session
        ⟨effect.coercion_eq.trans before.1,
          effect.keeps_coerced success built defaults baseDefaults before.1 idempotent before.2⟩)
      ⟨rfl, MemoryStore.holds_empty coercion⟩
  exact kept.2 id record stored

end Registered

/-! Statistics that start from a base. -/

/-- A collection of floats, which is made with the given base. -/
def statsSchema (base : Number) : ObjectSchema :=
  ⟨"Row", none,
    [{ Field.plain "id" FieldType.string with required := true },
      { Field.plain "stats" (.dict .string .float) with custom := some (.obj [("base", .num base)]) }]⟩

def half : Number :=
  .float ⟨false, Nat.pow 2 52, -53, by decide⟩

/-- A value of a half is measured for a row that is not there yet. -/
def measuring : List TableRequest :=
  [.set (.str "r1") "stats.\x7b\x7bstatsKey\x7d\x7d" (.num half) (.ofList [("statsKey", "a")])]

/-- A whole base is kept with the rounded value. -/
theorem measuring_keeps_coerced :
    let coercion := Coercion.fixedPoint 0
    let key : RecordKey := ⟨"id", .str "r1"⟩
    let record : Json := .obj [("id", .str "r1"),
      ("stats", .obj [("a", .num (.int 0)), ("base", .num (.int 2))])]
    ∃ compiled t, (Compiler.standard.compileAt "rows" (statsSchema (.int 2)) Path.root).result = .ok compiled ∧
      ofCompiled "id" compiled = .ok t ∧
      (ObjectSchema.Throughout (statsSchema (.int 2)) fun f => ∀ members, f.custom = some (.obj members) →
        (Json.obj members).coerce coercion = .obj members) ∧
      (∀ s ∈ Path.root.steps, s.HasCoercedDefault coercion) ∧ coercion.Idempotent ∧
      (t.serve measuring ⟨MemoryStore.empty coercion, []⟩).store.find? key = some record ∧
      record.coerce coercion = record := by
  intro coercion key record
  have run : (Compiler.standard.compileAt "rows" (statsSchema (.int 2)) Path.root).result.toOption.any (fun compiled =>
      (ofCompiled "id" compiled).toOption.any fun t =>
        decide ((t.serve measuring ⟨MemoryStore.empty coercion, []⟩).store.find? key = some record)) =
      true := by
    decide
  obtain ⟨compiled, success, run⟩ := exists_eq_ok_of_any run
  obtain ⟨t, built, run⟩ := exists_eq_ok_of_any run
  have stored := of_decide_eq_true run
  have defaults : ObjectSchema.Throughout (statsSchema (.int 2)) fun f => ∀ members,
      f.custom = some (.obj members) → (Json.obj members).coerce coercion = .obj members := by
    have whole : ObjectSchema.Throughout (statsSchema (.int 2)) fun f =>
        ∀ v ∈ f.custom, v.coerce coercion = v := by
      decide
    exact fun model held f declared members custom => whole model held f declared _ custom
  have baseDefaults : ∀ s ∈ Path.root.steps, s.HasCoercedDefault coercion := nofun
  exact ⟨compiled, t, success, built, defaults, baseDefaults, Coercion.fixedPoint_zero_idempotent, stored,
    history_keeps_coerced success built defaults baseDefaults Coercion.fixedPoint_zero_idempotent [] measuring stored⟩

/-- A base of a half stays a half in a store that rounds to whole numbers, and the value next to it is rounded. -/
theorem default_base_stays_half :
    let coercion := Coercion.fixedPoint 0
    let key : RecordKey := ⟨"id", .str "r1"⟩
    let record : Json := .obj [("id", .str "r1"), ("stats", .obj [("a", .num (.int 0)), ("base", .num half)])]
    coercion.Idempotent ∧
    ∃ t, (ofSchema "rows" "id" (statsSchema half) {}).result = .ok t ∧
      (t.serve measuring ⟨MemoryStore.empty coercion, []⟩).store.find? key = some record ∧
      record.coerce coercion ≠ record := by
  intro coercion key record
  have run : (ofSchema "rows" "id" (statsSchema half) {}).result.toOption.any (fun t =>
      decide ((t.serve measuring ⟨MemoryStore.empty coercion, []⟩).store.find? key = some record)) =
      true := by
    decide
  obtain ⟨t, built, run⟩ := exists_eq_ok_of_any run
  have rounded : record.coerce coercion ≠ record := by
    decide
  exact ⟨Coercion.fixedPoint_zero_idempotent, t, built, of_decide_eq_true run, rounded⟩

end Table

end DocSchema
