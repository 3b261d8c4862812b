import DocSchema.Proofs.Action
import DocSchema.Proofs.Path.Rendering
import DocSchema.Proofs.Schema.TopLevel
import DocSchema.Proofs.Validation.Check
import DocSchema.Table.Write

/-!
# What a table resolves

A table that was built from a schema has compiled the schema at the root. A request names a registered path,
which becomes the path of a declared place with its variables bound, and a key, which becomes a string or a
number of the type that the key field declares.
-/

namespace DocSchema

/-- A string or a number, as the values of record keys are. -/
def Json.isKey : Json → Bool
  | .str _ | .num _ => true
  | _ => false

/-- A value that is accepted for a container is an object. -/
theorem Validator.check_container {coercion : Coercion} {t : FieldType} {required : Bool} {field : String}
    {v w : Json} {ws : List Mismatch} (container : t.isContainer = true)
    (success : (check coercion t required field v).result = .ok ⟨some w, ws⟩) : ∃ members, w = .obj members := by
  induction t, v using induct with
  | object model members =>
    obtain ⟨kept, -, -, ⟨⟩⟩ := (check_object_ok_iff coercion required field).1 success
    exact ⟨kept, rfl⟩
  | dict keyType valueType members =>
    obtain ⟨kept, -, ⟨⟩⟩ := (check_dict_ok_iff coercion required field).1 success
    exact ⟨kept, rfl⟩
  | mismatch t v other =>
    rw [check_of_not_admits other] at success
    unfold mismatch at success
    split at success <;> cases success
  | leaf t v leaf => cases t <;> cases container <;> cases leaf
  | list => cases container

/-- If a string or a number is accepted, it is the given value with its number coerced. -/
theorem Validator.check_isKey {coercion : Coercion} {t : FieldType} {required : Bool} {field : String}
    {v w : Json} {ws : List Mismatch} (success : (check coercion t required field v).result = .ok ⟨some w, ws⟩)
    (scalar : w.isKey = true) : w = v.coerce coercion := by
  induction t, v using induct with
  | list element items =>
    obtain ⟨kept, -, ⟨⟩⟩ := (check_list_ok_iff coercion required field).1 success
    cases scalar
  | object model members =>
    obtain ⟨kept, -, -, ⟨⟩⟩ := (check_object_ok_iff coercion required field).1 success
    cases scalar
  | dict keyType valueType members =>
    obtain ⟨kept, -, ⟨⟩⟩ := (check_dict_ok_iff coercion required field).1 success
    cases scalar
  | mismatch t v other =>
    rw [check_of_not_admits other] at success
    unfold mismatch at success
    split at success <;> cases success
  | leaf t v leaf admitted =>
    rw [check_of_leaf leaf admitted] at success
    cases success
    rfl

namespace Table

variable {t : Table}

/-- A registered path is resolved by binding its variables. -/
theorem resolve_ok {path : String} {args : Arguments} {d : FieldDescriptor} {p : Path}
    (success : t.resolve path args = .ok (d, p)) :
    t.compiled.registry.get? path = some d ∧ p = d.path.under args := by
  unfold resolve CompiledSchema.resolve at success
  split at success
  · next registered =>
    obtain ⟨_, ⟨⟩, success⟩ := Traced.except_bind_ok_iff.1 success
    obtain ⟨_, rendered, ⟨⟩⟩ := Traced.except_bind_ok_iff.1 success
    exact ⟨registered, Path.render_ok rendered⟩
  · obtain ⟨_, ⟨⟩, _⟩ := Traced.except_bind_ok_iff.1 success

/-- A registered path that a store accepts is resolved by all arguments that bind its variables. -/
theorem resolve_of_bound {path : String} {args : Arguments} {d : FieldDescriptor}
    (registered : t.descriptor? path = some d)
    (bound : ∀ name ∈ d.path.variableNames, ∃ key, args.get? name = some key) (start : d.path.steps ≠ [])
    (room : d.path.depth ≤ Path.maxDepth) : t.resolve path args = .ok (d, d.path.under args) := by
  unfold resolve CompiledSchema.resolve
  rw [show t.compiled.registry.get? path = some d from registered]
  change (d.path.render args >>= fun p => pure (d, p)) = _
  rw [Path.render_of_bound bound start room]
  rfl

/-- A checked key has a value that the field of its name accepts. -/
theorem checkKey_ok {coercion : Coercion} {name : String} {value : Json} {key : RecordKey}
    (success : (t.checkKey coercion name value).result = .ok key) :
    key.name = name ∧ key.value.isKey = true ∧
      ∃ d ws, t.compiled.fields.find? (fun d => d.name = name) = some d ∧
        (Validator.check coercion d.type false d.fieldText value).result = .ok ⟨some key.value, ws⟩ := by
  unfold checkKey at success
  split at success
  · next d found =>
    obtain ⟨⟨checked, ws⟩, validated, success⟩ := Traced.bind_ok_iff.1 success
    have validated := eq_ok_of_mapError validated
    rw [FieldDescriptor.validate_result] at validated
    split at success
    · next accepted =>
      cases accepted
      cases success
      exact ⟨rfl, rfl, d, ws, found, validated⟩
    · next accepted =>
      cases accepted
      cases success
      exact ⟨rfl, rfl, d, ws, found, validated⟩
    · cases success
  · cases success

/-- A checked key has the given value, with its number coerced. -/
theorem value_of_checkKey {coercion : Coercion} {keyName : String} {value : Json} {key : RecordKey}
    (checked : (t.checkKey coercion keyName value).result = .ok key) : key.value = value.coerce coercion := by
  obtain ⟨-, scalar, d, ws, -, accepted⟩ := checkKey_ok checked
  exact Validator.check_isKey accepted scalar

/-- The key of a record that is stored is the member that the primary key names. -/
theorem keyOfRecord_ok {given record : Json} {key : RecordKey}
    (success : t.keyOfRecord given record = .ok key) :
    key.name = t.primaryKey ∧ key.value.isKey = true ∧ record.member? key.name = some key.value := by
  unfold keyOfRecord at success
  split at success
  · next present =>
    cases success
    exact ⟨rfl, rfl, present⟩
  · next present =>
    cases success
    exact ⟨rfl, rfl, present⟩
  · cases success

/-- Every removed path is the resolved path of a remover. -/
theorem resolveRemovers_ok {removers : List FieldRemover} {paths : List Path}
    (success : t.resolveRemovers removers = .ok paths) {p : Path} (member : p ∈ paths) :
    ∃ r ∈ removers, ∃ d, t.resolve r.path r.arguments = .ok (d, p) := by
  induction removers generalizing paths with
  | nil =>
    cases success
    cases member
  | cons r rest ih =>
    unfold resolveRemovers at success
    obtain ⟨⟨d, first⟩, resolved, success⟩ := Traced.except_bind_ok_iff.1 success
    obtain ⟨others, onward, ⟨⟩⟩ := Traced.except_bind_ok_iff.1 success
    rcases List.mem_cons.1 member with rfl | member
    · exact ⟨r, List.mem_cons_self, d, resolved⟩
    · obtain ⟨s, inside, found⟩ := ih onward member
      exact ⟨s, List.mem_cons_of_mem r inside, found⟩

/-- A checked setter writes what its descriptor accepts of its value, at its resolved path. -/
theorem prepare_checked_ok {coercion : Coercion} {s : FieldSetter} {prepared : PreparedWrite}
    (success : (t.prepare coercion (.checked s)).result = .ok prepared) {u : Path × Json}
    (member : u ∈ prepared.updates) :
    ∃ d ws, t.resolve s.path s.arguments = .ok (d, u.1) ∧
      (d.validate coercion s.value).result = .ok ⟨some u.2, ws⟩ := by
  unfold prepare at success
  obtain ⟨⟨d, p⟩, resolved, success⟩ := Traced.bind_ok_iff.1 success
  obtain ⟨⟨value, ws⟩, validated, success⟩ := Traced.bind_ok_iff.1 success
  cases value with
  | none =>
    cases success
    cases member
  | some w =>
    cases success
    cases List.mem_singleton.1 member
    exact ⟨d, ws, eq_ok_of_mapError resolved, eq_ok_of_mapError validated⟩

/-- Every update of a batch comes from one of its setters. -/
theorem prepareAll_ok {coercion : Coercion} {setters : List Setter} {prepared : PreparedWrite}
    (success : (t.prepareAll coercion setters).result = .ok prepared) {u : Path × Json}
    (member : u ∈ prepared.updates) :
    ∃ s ∈ setters, ∃ own, (t.prepare coercion s).result = .ok own ∧ u ∈ own.updates := by
  induction setters generalizing prepared with
  | nil =>
    cases success
    cases member
  | cons s rest ih =>
    unfold prepareAll at success
    obtain ⟨first, ready, success⟩ := Traced.bind_ok_iff.1 success
    obtain ⟨others, onward, ⟨⟩⟩ := Traced.bind_ok_iff.1 success
    rcases List.mem_append.1 member with member | member
    · exact ⟨s, List.mem_cons_self, first, ready, member⟩
    · obtain ⟨r, inside, found⟩ := ih onward member
      exact ⟨r, List.mem_cons_of_mem s inside, found⟩

section Built

variable {name primaryKey : String} {schema : ObjectSchema} {config : EngineConfig}

/-- A table holds the schema that it is made of as it was compiled. -/
theorem ofCompiled_ok {compiled : CompiledSchema} (built : ofCompiled primaryKey compiled = .ok t) :
    t = ⟨primaryKey, compiled⟩ := by
  unfold ofCompiled at built
  split at built
  · cases built
    rfl
  · cases built

/-- A table is built on the compilation of its schema at the root. -/
theorem ofSchema_ok (built : (ofSchema name primaryKey schema config).result = .ok t) :
    t.primaryKey = primaryKey ∧
      ((Compiler.ofConfig config).compileAt name schema Path.root).result = .ok t.compiled := by
  unfold ofSchema at built
  obtain ⟨_, _, built⟩ := Traced.bind_ok_iff.1 built
  obtain ⟨compiled, success, built⟩ := Traced.bind_ok_iff.1 built
  cases ofCompiled_ok built
  exact ⟨rfl, eq_ok_of_mapError success⟩

/-- The schema of a table is the one that was compiled, wherever its fields lie. -/
theorem schema_of_compileAt {c : Compiler} {base : Path}
    (success : (c.compileAt name schema base).result = .ok t.compiled) : t.compiled.schema = schema := by
  obtain ⟨_, _, _, shape⟩ := Compiler.compileAt_ok success
  exact congrArg CompiledSchema.schema shape

theorem compiled_schema (built : (ofSchema name primaryKey schema config).result = .ok t) :
    t.compiled.schema = schema :=
  schema_of_compileAt (ofSchema_ok built).2

/-- What a table resolves is a declared place that a store accepts, under its path text. -/
theorem isPlace_of_registered (built : (ofSchema name primaryKey schema config).result = .ok t) {path : String}
    {d : FieldDescriptor} (registered : t.compiled.registry.get? path = some d) :
    IsPlace name config.maxNestedDepth schema Path.root d ∧ path = d.pathText ∧
      d.path.depth ≤ Path.maxDepth :=
  (Compiler.get?_registry_iff_isPlace rfl (ofSchema_ok built).2 path d).1 registered

/-- A field whose name is the name of a checked key holds no other places. -/
theorem not_isContainer_of_checkKey (built : (ofSchema name primaryKey schema config).result = .ok t)
    {coercion : Coercion} {keyName : String} {value : Json} {key : RecordKey}
    (checked : (t.checkKey coercion keyName value).result = .ok key) {f : FieldDecl}
    (declared : f ∈ schema.fields) (named : f.name = keyName) : (f.typeIn schema).isContainer = false := by
  obtain ⟨-, scalar, d, ws, found, accepted⟩ := checkKey_ok checked
  obtain ⟨-, -, -, -, same⟩ := Compiler.find?_fields (ofSchema_ok built).2 found
  cases container : (f.typeIn schema).isContainer with
  | false => rfl
  | true =>
    have type : d.type = f.typeIn schema := (congrArg FieldDescriptor.type (same f declared named)).symm
    obtain ⟨members, object⟩ := Validator.check_container (type ▸ container) accepted
    rw [object] at scalar
    cases scalar

end Built

end Table

end DocSchema
