import DocSchema.Path.Render
import DocSchema.Schema.Compiler
import DocSchema.Table.Error
import DocSchema.Table.Request
import DocSchema.Validation.Validator

/-!
# Tables

A table binds a compiled schema and a primary key to a store. A request is resolved, rendered and checked
before the store is called; what a store returns is validated again.

Sections 4.5 and 11 of the specification: `Table` with `with_config` and `from_compiled`, and what its operations
share: `resolve`, `resolve_unsafe`, `record_key` and `checked_key`.
-/

namespace DocSchema

structure Table where
  primaryKey : String
  compiled : CompiledSchema

/-- The store behind a table and the events noted so far. -/
structure Session (σ : Type) where
  store : σ
  log : List LogEntry

abbrev TableM (σ : Type) := ExceptT TableError (StateM (Session σ))

namespace TableM

variable {σ α : Type}

def ofExcept {ε : Type} (wrap : ε → TableError) (r : Except ε α) : TableM σ α :=
  fun s => (r.mapError wrap, s)

/-- Take over a traced computation with its notes. -/
def ofTraced {ε : Type} (wrap : ε → TableError) (x : Traced LogEntry ε α) : TableM σ α :=
  fun s => (x.result.mapError wrap, { s with log := s.log ++ x.notes })

def note (entry : LogEntry) : TableM σ Unit :=
  fun s => (.ok (), { s with log := s.log ++ [entry] })

/-- Call the store. -/
def call (action : StoreM σ α) : TableM σ α :=
  fun s =>
    let (result, store) := action s.store
    (result.mapError .store, { s with store })

/-- The coercion of the store. -/
def coercion [DocumentStore σ] : TableM σ Coercion :=
  fun s => (.ok (DocumentStore.coercion s.store), s)

end TableM

namespace Table

/-- The primary key has to be a declared field. -/
def ofCompiled (primaryKey : String) (compiled : CompiledSchema) : Except TableError Table :=
  if (compiled.schema.find? primaryKey).isSome then .ok ⟨primaryKey, compiled⟩
  else .error (.unknownKeyField primaryKey compiled.table)

def ofSchema (name primaryKey : String) (schema : ObjectSchema) (config : EngineConfig) :
    Traced LogEntry TableError Table := do
  Traced.ofExcept (config.validate.mapError .config)
  let compiled ← ((Compiler.ofConfig config).compile name schema).mapError .schema
  Traced.ofExcept (ofCompiled primaryKey compiled)

def name (t : Table) : String :=
  t.compiled.table

def descriptor? (t : Table) (path : String) : Option FieldDescriptor :=
  t.compiled.registry.get? path

/-- The descriptor registered for a path text, and its rendered path. -/
def resolve (t : Table) (path : String) (args : Arguments) :
    Except PathError (FieldDescriptor × Path) := do
  let d ← t.compiled.resolve path
  let p ← d.path.render args
  return (d, p)

/-- The steps of a continuation: every key but the last one leads to a map. -/
def continuationSteps : List String → List PathStep
  | [] => []
  | [last] => [PathStep.literal last .any]
  | key :: rest => PathStep.literal key .map :: continuationSteps rest

/-- The path of a raw setter. Its depth is checked before its variables are bound. -/
def resolveRaw (t : Table) (s : RawSetter) : Except PathError Path := do
  let d ← t.compiled.resolve s.basePath
  let p := d.path.extend (continuationSteps s.continuation)
  p.checkDepth
  p.render s.arguments

/-- The key of a record: a string or a number of the type that the top-level field `name` declares. -/
def checkKey (t : Table) (coercion : Coercion) (name : String) (value : Json) :
    Traced LogEntry TableError RecordKey := do
  let some d := t.compiled.fields.find? fun d => d.name = name
    | Traced.fail (.unknownKeyField name t.name)
  let checked ← (FieldDescriptor.validate { d with required := false } coercion value).mapError .validation
  match checked.value with
  | some (.str s) => return ⟨name, .str s⟩
  | some (.num n) => return ⟨name, .num n⟩
  | _ => Traced.fail (.invalidKeyValue name value)

variable {σ : Type} [DocumentStore σ]

def checkedKey (t : Table) (key : RecordKey) : TableM σ RecordKey := do
  TableM.ofTraced id (t.checkKey (← TableM.coercion) key.name key.value)

/-- The record key of a primary key value. -/
def recordKey (t : Table) (value : Json) : TableM σ RecordKey :=
  t.checkedKey ⟨t.primaryKey, value⟩

def validate (d : FieldDescriptor) (v : Json) : TableM σ Validation := do
  TableM.ofTraced .validation (d.validate (← TableM.coercion) v)

/-- Validate a value that may be absent. -/
def validate? (d : FieldDescriptor) : Option Json → TableM σ Validation
  | some v => validate d v
  | none => pure .empty

end Table

end DocSchema
