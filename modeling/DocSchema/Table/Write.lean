import DocSchema.Table.Basic

/-!
# Writing through a table

All setters of a batch are resolved and validated before the store is called once. A value that is rejected
as a whole is reported and left out; an error of any setter leaves out the whole batch.

Sections 4.5 and 11 of the specification: `set`, `set_unsafe`, `set_many`, `remove`, `remove_many`, `put_record` and
`delete_record`, with `WriteReport`.
-/

namespace DocSchema

/-- The outcome of a write: paths written, paths left out, and entries dropped from written values. -/
structure WriteReport where
  applied : List String
  rejected : List String
  warnings : List Mismatch
deriving DecidableEq, Repr

namespace WriteReport

def empty : WriteReport :=
  ⟨[], [], []⟩

def append (a b : WriteReport) : WriteReport :=
  ⟨a.applied ++ b.applied, a.rejected ++ b.rejected, a.warnings ++ b.warnings⟩

/-- Every value was written as it was given. -/
def isComplete (r : WriteReport) : Bool :=
  r.rejected.isEmpty && r.warnings.isEmpty

def hasWrites (r : WriteReport) : Bool :=
  !r.applied.isEmpty

end WriteReport

/-- A batch ready for the store. -/
structure PreparedWrite where
  updates : List (Path × Json)
  report : WriteReport

namespace Table

def prepare (t : Table) (coercion : Coercion) : Setter → Traced LogEntry TableError PreparedWrite
  | .checked s => do
    let (d, p) ← Traced.ofExcept ((t.resolve s.path s.arguments).mapError .path)
    let checked ← (d.validate coercion s.value).mapError .validation
    match checked.value with
    | some v => return ⟨[(p, v)], ⟨[s.path], [], checked.warnings⟩⟩
    | none => return ⟨[], ⟨[], [s.path], checked.warnings⟩⟩
  | .raw s => do
    let p ← Traced.ofExcept ((t.resolveRaw s).mapError .path)
    return ⟨[(p, s.value.coerce coercion)], ⟨[s.basePath], [], []⟩⟩

def prepareAll (t : Table) (coercion : Coercion) :
    List Setter → Traced LogEntry TableError PreparedWrite
  | [] => pure ⟨[], .empty⟩
  | s :: rest => do
    let first ← t.prepare coercion s
    let others ← t.prepareAll coercion rest
    return ⟨first.updates ++ others.updates, first.report.append others.report⟩

variable {σ : Type} [DocumentStore σ]

/-- Apply setters in one update. The store is not called if nothing is left to write. -/
def setMany (t : Table) (keyValue : Json) (setters : List Setter) : TableM σ WriteReport := do
  let prepared ← TableM.ofTraced id (t.prepareAll (← TableM.coercion) setters)
  let key ← t.recordKey keyValue
  if prepared.updates.isEmpty then return prepared.report
  else do
    TableM.note ⟨.storeSet,
      [("count", toString prepared.updates.length), ("key", key.text), ("table", t.name)]⟩
    TableM.call (DocumentStore.setFields key prepared.updates)
    return prepared.report

def set (t : Table) (keyValue : Json) (path : String) (value : Json) (args : Arguments) :
    TableM σ WriteReport :=
  t.setMany keyValue [.checked ⟨path, value, args⟩]

def setRaw (t : Table) (keyValue : Json) (setter : RawSetter) : TableM σ WriteReport :=
  t.setMany keyValue [.raw setter]

def resolveRemovers (t : Table) : List FieldRemover → Except PathError (List Path)
  | [] => .ok []
  | r :: rest => do
    let (_, p) ← t.resolve r.path r.arguments
    let ps ← t.resolveRemovers rest
    return p :: ps

/-- Remove several fields in one update. Nothing at all is done for an empty batch. -/
def removeMany (t : Table) (keyValue : Json) (removers : List FieldRemover) : TableM σ Unit := do
  if removers.isEmpty then return ()
  else do
    let paths ← TableM.ofExcept .path (t.resolveRemovers removers)
    let key ← t.recordKey keyValue
    TableM.note ⟨.storeRemove,
      [("count", toString paths.length), ("key", key.text), ("table", t.name)]⟩
    TableM.call (DocumentStore.removeFields key paths)

def remove (t : Table) (keyValue : Json) (path : String) (args : Arguments) : TableM σ Unit :=
  t.removeMany keyValue [⟨path, args⟩]

/-- The key of a validated record, which has to be a string or a number. -/
def keyOfRecord (t : Table) (given : Json) (record : Json) : Except TableError RecordKey :=
  match record.member? t.primaryKey with
  | some (.str s) => .ok ⟨t.primaryKey, .str s⟩
  | some (.num n) => .ok ⟨t.primaryKey, .num n⟩
  | _ => .error (.invalidKeyValue t.primaryKey given)

/-- Validate a whole record and store it under its key; the result lists what was dropped from it. -/
def putRecord (t : Table) (record : Json) : TableM σ (List Mismatch) := do
  match record.member? t.primaryKey with
  | none | some .null => TableM.ofExcept id (.error (.missingPrimaryKey t.primaryKey))
  | some given => do
    let checked ← validate t.compiled.record record
    match checked.value with
    | none => TableM.ofExcept id (.error (.missingPrimaryKey t.primaryKey))
    | some value => do
      let key ← TableM.ofExcept id (t.keyOfRecord given value)
      TableM.note ⟨.recordPut,
        [("dropped", toString checked.warnings.length), ("key", key.text), ("table", t.name)]⟩
      TableM.call (DocumentStore.putRecord key value)
      return checked.warnings

/-- Delete a record and tell whether there was one. The key may name any top-level field. -/
def deleteRecord (t : Table) (key : RecordKey) : TableM σ Bool := do
  let key ← t.checkedKey key
  TableM.note ⟨.recordDelete, [("key", key.text), ("table", t.name)]⟩
  TableM.call (DocumentStore.deleteRecord key)

end Table

end DocSchema
