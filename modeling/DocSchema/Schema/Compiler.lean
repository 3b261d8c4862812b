import DocSchema.Config
import DocSchema.Event
import DocSchema.Schema.Walk

/-!
# Compiling schemas

A compiled schema registers every place of the schema under its path text. The places of a walk are entered
one after the other: a place that is too deep is skipped, or is an error if the depth is strict, and a path
text that occurs twice is an error. An error of an earlier place comes before an error of the walk itself.

Section 4.2 of the specification: `compile` and `compile_at`, with `register` for one place; section 3:
`CompiledSchema` and its `PathRegistry`.
-/

namespace DocSchema

/-- A path that was not registered because it is too deep. -/
structure SkippedPath where
  path : String
  depth : Nat
deriving DecidableEq, Repr

structure CompiledSchema where
  table : String
  schema : ObjectSchema
  registry : SortedMap FieldDescriptor
  /-- The registered fields of the schema itself, in declaration order. -/
  fields : List FieldDescriptor
  skipped : List SkippedPath

namespace CompiledSchema

/-- The descriptor of the whole record. -/
def record (c : CompiledSchema) : FieldDescriptor :=
  .record c.table c.schema

def resolve (c : CompiledSchema) (path : String) : Except PathError FieldDescriptor :=
  match c.registry.get? path with
  | some d => .ok d
  | none => .error (.unknownPath path)

end CompiledSchema

/-- The registry while it is built. -/
structure Draft where
  registry : SortedMap FieldDescriptor
  skipped : List SkippedPath

namespace Draft

def empty : Draft :=
  ⟨∅, []⟩

def skip (draft : Draft) (d : FieldDescriptor) : Draft :=
  { draft with skipped := draft.skipped ++ [⟨d.pathText, d.path.depth⟩] }

def register (draft : Draft) (d : FieldDescriptor) : Draft :=
  { draft with registry := draft.registry.insert d.pathText d }

/-- Enter one place of a walk. -/
def enter (strict : Bool) (draft : Draft) (d : FieldDescriptor) : Traced LogEntry SchemaError Draft :=
  if Path.maxDepth < d.path.depth then
    if strict then Traced.fail (.pathTooDeep d.pathText d.path.depth)
    else do
      Traced.note ⟨.pathSkipped,
        [("depth", toString d.path.depth), ("path", d.pathText), ("table", d.table)]⟩
      return draft.skip d
  else if draft.registry.contains d.pathText then Traced.fail (.duplicatePath d.pathText)
  else return draft.register d

/-- Enter the places of a walk in order. -/
def enterAll (strict : Bool) : Draft → List FieldDescriptor → Traced LogEntry SchemaError Draft
  | draft, [] => pure draft
  | draft, d :: ds => do
    let draft ← draft.enter strict d
    enterAll strict draft ds

end Draft

/-- The settings under which schemas are compiled. -/
structure Compiler where
  maxNestedDepth : Nat
  strictDepth : Bool
deriving DecidableEq, Repr

namespace Compiler

def ofConfig (c : EngineConfig) : Compiler :=
  ⟨c.maxNestedDepth, c.strictDepth⟩

def standard : Compiler :=
  ofConfig {}

/-- Compile a schema whose fields lie below `base`. -/
def compileAt (c : Compiler) (table : String) (schema : ObjectSchema) (base : Path) :
    Traced LogEntry SchemaError CompiledSchema := do
  Traced.note ⟨.schemaCompileBegin, [("schema", schema.name), ("table", table)]⟩
  let walk := Walk.ofSchema table c.maxNestedDepth schema base
  let draft ← Draft.empty.enterAll c.strictDepth walk.notes
  let fields ← Traced.ofExcept walk.result
  Traced.note ⟨.schemaCompileComplete,
    [("paths", toString draft.registry.size), ("schema", schema.name),
      ("skipped", toString draft.skipped.length), ("table", table)]⟩
  return ⟨table, schema, draft.registry, fields, draft.skipped⟩

def compile (c : Compiler) (table : String) (schema : ObjectSchema) :
    Traced LogEntry SchemaError CompiledSchema :=
  c.compileAt table schema Path.root

end Compiler

end DocSchema
