import DocSchema.Proofs.Store.Fitting
import DocSchema.Proofs.Table.Effect
import DocSchema.Proofs.Table.Outcome
import DocSchema.Proofs.Table.Resolution
import DocSchema.Proofs.Validation.Positions

/-!
# Reads without warnings

Checked setters write values that fit the type of their place, but the keys that their arguments give to the
collections on the way are not checked. As long as each of these keys is of its key type, every stored record fits
the schema, and a read never has to drop anything of what it finds.
-/

namespace DocSchema

open DocSchema.Action

namespace Table

variable {name primaryKey : String} {schema : ObjectSchema} {config : EngineConfig} {t : Table}

/-- The setter is checked against the schema, and its arguments give each collection on the way to its place a
key of the key type. -/
def SetsAcceptedKeys (t : Table) (setter : Setter) : Prop :=
  ∃ s, setter = .checked s ∧ ∀ d, t.descriptor? s.path = some d →
    (FieldType.object t.compiled.schema).acceptsKeys s.arguments d.path.steps = true

/-- A record with nothing but a checked key fits. -/
theorem fits_of_checkKey (built : (ofSchema name primaryKey schema config).result = .ok t)
    {coercion : Coercion} (kinds : coercion.KeepsKinds) {keyName : String} {value : Json} {key : RecordKey}
    (checked : (t.checkKey coercion keyName value).result = .ok key) :
    Fits (.object schema) (.obj [(key.name, key.value)]) := by
  obtain ⟨named, -, d, ws, found, accepted⟩ := checkKey_ok checked
  obtain ⟨f, declared, same, -, each⟩ := Compiler.find?_fields (ofSchema_ok built).2 found
  obtain ⟨g, first⟩ := Model.exists_find?_eq_some declared
  have passed := List.find?_some first
  have firstNamed : g.name = f.name := of_decide_eq_true passed
  have type : g.typeIn schema = d.type :=
    congrArg FieldDescriptor.type (each g (Model.mem_of_find? first) (firstNamed.trans same))
  refine .of_entries rfl fun other v member => ?_
  cases List.mem_singleton.1 member
  refine ⟨g.typeIn schema, ?_, type ▸ Validator.fits_of_check kinds accepted⟩
  rw [named, ← same]
  exact congrArg (Option.map _) first

/-- Every effect keeps the records fitting, if its setters give accepted keys. -/
theorem Effect.keeps_fitting (built : (ofSchema name primaryKey schema config).result = .ok t)
    (regular : ObjectSchema.IndexesSelfRefs schema)
    (plain : ObjectSchema.Throughout schema fun f => f.custom = none) {s s' : MemoryStore}
    (kinds : s.coercion.KeepsKinds) {request : TableRequest} (effect : Effect t s request s')
    (accepted : ∀ setter ∈ request.setters, t.SetsAcceptedKeys setter)
    (fitting : s.Holds fun _ record => Fits (.object schema) record) :
    s'.Holds fun _ record => Fits (.object schema) record := by
  have compiled := (ofSchema_ok built).2
  cases effect with
  | stay => exact fitting
  | write ready checked written =>
    obtain ⟨before, after, start, applied, rfl⟩ := MemoryStore.setFields_ok written
    have first : Fits (.object schema) (.obj before) := by
      rcases MemoryStore.target_ok start with found | ⟨-, rfl⟩
      · exact fitting _ _ found
      · exact fits_of_checkKey built kinds checked
    refine fitting.put (MemoryStore.writeAll_induction
      (P := fun members => Fits (.object schema) (.obj members)) (fun u member now next fits wrote => ?_)
      first applied)
    obtain ⟨setter, declared, own, prepared, inside⟩ := prepareAll_ok ready member
    obtain ⟨setter, rfl, keys⟩ := accepted setter declared
    obtain ⟨d, ws, resolved, validated⟩ := prepare_checked_ok prepared inside
    obtain ⟨registered, path⟩ := resolve_ok resolved
    obtain ⟨place, -, room⟩ := isPlace_of_registered built registered
    have typed := Compiler.typeAt?_of_isPlace compiled regular place room
    have customs : ∀ s ∈ d.path.steps, s.custom = none :=
      place.forall_steps (fun _ _ => rfl) fun model held f declared _ => plain model held f declared
    rw [FieldDescriptor.validate_result] at validated
    have value := Validator.fits_of_check kinds validated
    have keys := keys d registered
    rw [compiled_schema built] at keys
    rw [path] at wrote
    exact Fits.write typed keys customs value fits wrote
  | remove resolved checked removed =>
    rcases MemoryStore.removeFields_ok removed with rfl | ⟨before, after, found, applied, rfl⟩
    · exact fitting
    · exact fitting.put (MemoryStore.removeAll_induction
        (P := fun members => Fits (.object schema) (.obj members))
        (fun _ _ _ _ fits erased => fits.remove erased) (fitting _ _ found) applied)
  | put validated keyOf stored =>
    obtain ⟨-, -, present⟩ := keyOfRecord_ok keyOf
    obtain ⟨members, rfl, rfl⟩ := MemoryStore.putRecord_ok present stored
    rw [FieldDescriptor.validate_result] at validated
    have fits : Fits (.object t.compiled.schema) (.obj members) := Validator.fits_of_check kinds validated
    rw [compiled_schema built] at fits
    exact fitting.put fits
  | delete _ => exact fitting.deleteRecord _

/-- Where the records fit, a read of a field drops nothing: it gives a value without warnings or no value at all,
or it is refused for a required field that is missing. -/
theorem get_of_fitting (built : (ofSchema name primaryKey schema config).result = .ok t)
    (regular : ObjectSchema.IndexesSelfRefs schema) {session : Session MemoryStore}
    (fitting : session.store.Holds fun _ record => Fits (.object schema) record) {keyValue : Json}
    {path : String} {args : Arguments} {d : FieldDescriptor} {key : RecordKey}
    (registered : t.descriptor? path = some d)
    (bound : ∀ variableName ∈ d.path.variableNames, ∃ k, args.get? variableName = some k)
    (checked : (t.checkKey session.store.coercion t.primaryKey keyValue).result = .ok key) :
    (∃ r, result (t.get keyValue path args) session = .ok r ∧ r.warnings = []) ∨
      ∃ m, result (t.get keyValue path args) session = .error (.validation (.missing m)) := by
  obtain ⟨place, -, room⟩ := isPlace_of_registered built registered
  have start := place.steps_ne_nil
  have resolved := resolve_of_bound registered bound start room
  cases found : session.store.find? key with
  | none =>
    have absent : session.store.getField key (d.path.under args) = .ok none :=
      MemoryStore.getField_of_absent found (by simpa [Path.under] using start)
    exact .inl ⟨.empty, result_get resolved checked absent, rfl⟩
  | some record =>
    obtain ⟨field, reads, stored⟩ : ∃ field, Json.readSteps (d.path.under args).steps record = .ok field ∧
        session.store.getField key (d.path.under args) = .ok field :=
      ⟨_, Json.readSteps_under args d.path.steps record, MemoryStore.getField_under found start args⟩
    rw [result_get resolved checked stored]
    cases field with
    | none => exact .inl ⟨.empty, rfl, rfl⟩
    | some v =>
      have typed := Compiler.typeAt?_of_isPlace (ofSchema_ok built).2 regular place room
      have fits : Fits d.type v := Fits.read typed (fitting _ _ found) reads
      dsimp only
      rw [FieldDescriptor.validate_result]
      rcases Validator.check_spares fits d.required d.fieldText with ⟨w, accepted⟩ | ⟨m, refused⟩
      · rw [accepted]
        exact .inl ⟨_, rfl, rfl⟩
      · rw [refused]
        exact .inr ⟨m, rfl⟩

/-- In a table without custom defaults, in which only collections of self references are indexed, and over a
store that keeps numbers as numbers: after every history of checked requests, failed ones included, whose setters
give collections keys of their key types, a read of a registered path under a valid key drops nothing. -/
theorem history_reads_cleanly (built : (ofSchema name primaryKey schema config).result = .ok t)
    (regular : ObjectSchema.IndexesSelfRefs schema)
    (plain : ObjectSchema.Throughout schema fun f => f.custom = none) {coercion : Coercion}
    (kinds : coercion.KeepsKinds) (log : List LogEntry) (requests : List TableRequest)
    (accepted : ∀ request ∈ requests, ∀ setter ∈ request.setters, t.SetsAcceptedKeys setter)
    {keyValue : Json} {path : String} {args : Arguments} {d : FieldDescriptor} {key : RecordKey}
    (registered : t.descriptor? path = some d)
    (bound : ∀ variableName ∈ d.path.variableNames, ∃ k, args.get? variableName = some k)
    (checked : (t.checkKey coercion primaryKey keyValue).result = .ok key) :
    let session := t.serve requests ⟨MemoryStore.empty coercion, log⟩
    (∃ r, result (t.get keyValue path args) session = .ok r ∧ r.warnings = []) ∨
      ∃ m, result (t.get keyValue path args) session = .error (.validation (.missing m)) := by
  intro session
  obtain ⟨same, fitting⟩ : session.store.coercion = coercion ∧
      session.store.Holds fun _ record => Fits (.object schema) record :=
    serve_induction
      (P := fun s => s.coercion = coercion ∧ s.Holds fun _ record => Fits (.object schema) record)
      (fun request member session before =>
        have effect := effect_handle t request session
        ⟨effect.coercion_eq.trans before.1,
          effect.keeps_fitting built regular plain (before.1 ▸ kinds) (accepted request member) before.2⟩)
      ⟨rfl, MemoryStore.holds_empty coercion⟩
  rw [← same, ← (ofSchema_ok built).1] at checked
  exact get_of_fitting built regular fitting registered bound checked

/-! A ranking with a title as its key, and ranks under integer keys. -/

open FieldDescriptor (rankedSchema)

theorem rankedSchema_plain : ObjectSchema.Throughout rankedSchema fun f =>
    KeyName.isIndexed f.keyVariable = false ∧ f.custom = none := by
  decide

def rankPath : String := "ranks.\x7b\x7branksKey\x7d\x7d"

/-- One rank under the given key. -/
def ranking (rankKey : String) : List TableRequest :=
  [.set (.str "t") rankPath (.num (.int 10)) (.ofList [("ranksKey", rankKey)])]

theorem ranking_reads_cleanly :
    let args : Arguments := .ofList [("ranksKey", "1")]
    let key : RecordKey := ⟨"title", .str "t"⟩
    ∃ t d, (ofSchema "ranked" "title" rankedSchema {}).result = .ok t ∧
      ObjectSchema.IndexesSelfRefs rankedSchema ∧
      (ObjectSchema.Throughout rankedSchema fun f => f.custom = none) ∧
      (Coercion.ofScale none).KeepsKinds ∧
      (∀ request ∈ ranking "1", ∀ setter ∈ request.setters, t.SetsAcceptedKeys setter) ∧
      t.descriptor? rankPath = some d ∧ (∀ name ∈ d.path.variableNames, ∃ k, args.get? name = some k) ∧
      (t.checkKey (.ofScale none) "title" key.value).result = .ok key ∧
      let session := t.serve (ranking "1") ⟨MemoryStore.empty (.ofScale none), []⟩
      ((∃ r, result (t.get key.value rankPath args) session = .ok r ∧ r.warnings = []) ∨
        ∃ m, result (t.get key.value rankPath args) session = .error (.validation (.missing m))) := by
  intro args key
  have run : (ofSchema "ranked" "title" rankedSchema {}).result.toOption.any (fun t =>
      (t.descriptor? rankPath).any (fun d => decide (d.path.variableNames = ["ranksKey"]) &&
        (FieldType.object t.compiled.schema).acceptsKeys args d.path.steps) &&
      decide ((t.checkKey (.ofScale none) "title" key.value).result.toOption = some key)) = true := by
    decide
  obtain ⟨t, built, passed⟩ := exists_eq_ok_of_any run
  simp only [Bool.and_eq_true, decide_eq_true_eq, Option.any_eq_true] at passed
  obtain ⟨⟨d, registered, named, keys⟩, checked⟩ := passed
  have checked := eq_ok_of_toOption checked
  have accepted : ∀ request ∈ ranking "1", ∀ setter ∈ request.setters, t.SetsAcceptedKeys setter := by
    intro request member setter inside
    cases List.mem_singleton.1 member
    cases List.mem_singleton.1 inside
    refine ⟨_, rfl, fun e found => ?_⟩
    cases registered.symm.trans found
    exact keys
  have bound : ∀ name ∈ d.path.variableNames, ∃ k, args.get? name = some k := by
    intro name member
    rw [named] at member
    cases List.mem_singleton.1 member
    exact ⟨"1", rfl⟩
  have regular := ObjectSchema.indexesSelfRefs_of_plain fun model held f declared =>
    (rankedSchema_plain model held f declared).1
  have plain : ObjectSchema.Throughout rankedSchema fun f => f.custom = none :=
    fun model held f declared => (rankedSchema_plain model held f declared).2
  have kinds := Coercion.ofScale_keepsKinds none
  exact ⟨t, d, built, regular, plain, kinds, accepted, registered, bound, checked,
    history_reads_cleanly built regular plain kinds [] (ranking "1") accepted registered bound checked⟩

/-- A checked setter stores a rank under a key that is no integer, and the next read of the ranks drops it. -/
theorem ranking_drops_rank :
    let key : RecordKey := ⟨"title", .str "t"⟩
    ∃ t d, (ofSchema "ranked" "title" rankedSchema {}).result = .ok t ∧
      (ObjectSchema.Throughout rankedSchema fun f =>
        KeyName.isIndexed f.keyVariable = false ∧ f.custom = none) ∧
      (∀ request ∈ ranking "abc", request.IsSafe) ∧
      t.descriptor? "ranks" = some d ∧ d.path.variableNames = [] ∧
      (t.checkKey .passThrough "title" key.value).result = .ok key ∧
      result (t.get key.value "ranks" ∅) (t.serve (ranking "abc") ⟨MemoryStore.empty .passThrough, []⟩) =
        .ok ⟨some (.obj []), [.ofKey "ranks.abc" "int" "abc"]⟩ := by
  intro key
  have run : (ofSchema "ranked" "title" rankedSchema {}).result.toOption.any (fun t =>
      (t.descriptor? "ranks").any (fun d => decide (d.path.variableNames = [])) &&
      decide ((t.checkKey .passThrough "title" key.value).result.toOption = some key) &&
      decide ((result (t.get key.value "ranks" ∅)
        (t.serve (ranking "abc") ⟨MemoryStore.empty .passThrough, []⟩)).toOption =
          some ⟨some (.obj []), [.ofKey "ranks.abc" "int" "abc"]⟩)) = true := by
    decide
  obtain ⟨t, built, passed⟩ := exists_eq_ok_of_any run
  simp only [Bool.and_eq_true, decide_eq_true_eq, Option.any_eq_true] at passed
  obtain ⟨⟨⟨d, registered, named⟩, checked⟩, dropped⟩ := passed
  have safe : ∀ request ∈ ranking "abc", request.IsSafe := by
    simp [ranking, TableRequest.IsSafe, TableRequest.setters]
  exact ⟨t, d, built, rankedSchema_plain, safe, registered, named, eq_ok_of_toOption checked,
    eq_ok_of_toOption dropped⟩

end Table

end DocSchema
