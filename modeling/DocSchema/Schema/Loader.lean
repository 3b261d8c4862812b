import DocSchema.FileTree
import DocSchema.Json.Reader
import DocSchema.Json.Text
import DocSchema.Schema.Compiler
import DocSchema.Schema.Form

/-!
# Loading schemas

A loader keeps schemas by name. Schemas come from the files of one directory, one schema a file, or are
registered directly; each is compiled once before it is kept. Files are taken in ascending order of their
names, and each schema is kept as soon as it was read, whatever becomes of the files after it. A schema is
saved under the path text that its name makes, which need not stay inside the directory.

Section 11 of the specification, the schema loader: `SchemaLoader` with `register`, `load_all` and
`save_schema`.
-/

namespace DocSchema

structure Loader where
  directory : Place
  compiler : Compiler
  schemas : SortedMap ObjectSchema

namespace Loader

def empty (directory : Place) (compiler : Compiler) : Loader :=
  ⟨directory, compiler, ∅⟩

def get? (l : Loader) (name : String) : Option ObjectSchema :=
  l.schemas.get? name

def malformed (l : Loader) (file : String) (fault : FileFault) : SchemaError :=
  .malformed (l.directory.text ++ "/" ++ file) fault

/-- Keep a schema under a name that is not taken, if it compiles. -/
def register (l : Loader) (schema : ObjectSchema) : Traced LogEntry SchemaError Loader := do
  if l.schemas.contains schema.name then Traced.fail (.alreadyRegistered schema.name)
  else do
    let _ ← l.compiler.compile schema.name schema
    return { l with schemas := l.schemas.insert schema.name schema }

def suffix : List Char :=
  ['.', 'j', 's', 'o', 'n']

/-- The name of a schema file has a stem in front of the suffix. -/
def isSchemaFile (name : String) : Bool :=
  suffix.length < name.length && suffix.isSuffixOf name.toList

def loadFile (l : Loader) (name : String) (file : FileTree) : Traced LogEntry SchemaError Loader := do
  let some text := file.text? | Traced.fail (l.malformed name .readFile)
  let some schema := (Json.Tree.ofText? (some Json.nestingLimit) text).bind Model.ofTree?
    | Traced.fail (l.malformed name .invalidJson)
  l.register schema

/-- Load files in order up to the first error. What was loaded before it stays. -/
def loadFiles (l : Loader) : List (String × FileTree) → Loader × Traced LogEntry SchemaError Unit
  | [] => (l, pure ())
  | (name, file) :: rest =>
    let loaded := l.loadFile name file
    match loaded.result with
    | .error e => (l, ⟨loaded.notes, .error e⟩)
    | .ok next =>
      let (last, others) := next.loadFiles rest
      (last, ⟨loaded.notes ++ others.notes, others.result⟩)

/-- The schema files of a directory in ascending order of their names. -/
def schemaFiles (entries : List (String × FileTree)) : List (String × FileTree) :=
  (entries.filter fun e => isSchemaFile e.1).mergeSort fun a b => a.1 ≤ b.1

/-- Load every schema file of the directory, and tell how many there are. A directory that is not there
holds none. -/
def loadAll (l : Loader) (files : FileTree) : Loader × Traced LogEntry SchemaError Nat :=
  match files.find? l.directory with
  | none => (l, pure 0)
  | some (.file _) => (l, Traced.fail (.malformed l.directory.text .readDirectory))
  | some (.folder entries) =>
    let found := schemaFiles entries
    let (last, loaded) := l.loadFiles found
    (last, do
      loaded
      Traced.note ⟨.schemasLoaded, [("count", toString found.length), ("dir", l.directory.text)]⟩
      return found.length)

/-- The file of a schema, as a path text seen from the directory. -/
def fileOf (schema : ObjectSchema) : String :=
  schema.name ++ String.ofList suffix

/-- Write a schema to its own file, making the directory if it is not there. A file is never written over.
The result is the path text of the file. -/
def save (l : Loader) (files : FileTree) (schema : ObjectSchema) : FileTree × Except SchemaError String :=
  let file := fileOf schema
  if (files.lookup? l.directory file).isSome then (files, .error (.alreadyRegistered schema.name))
  else
    match files.makeFolder? l.directory with
    | none => (files, .error (.malformed l.directory.text .createDirectory))
    | some made =>
      match made.writeAt? l.directory file schema.toJson.indentedText.toUTF8 with
      | some written => (written, .ok file)
      | none => (made, .error (l.malformed file .writeFile))

end Loader

end DocSchema
