import DocSchema.Store.Basic

/-!
# Stores in memory

Records are kept by id. A write makes the levels it needs: a missing or null level on the way becomes a map.
The updates of one call are applied to a copy of the record, which replaces it only if all of them succeed.

Section 11 of the specification, the in-memory document store: `read_path`, `set_path`, `remove_path` and
`materialize` work on one record, which `record_id` tells from the others.
-/

namespace DocSchema

namespace PathStep

def literalKey (s : PathStep) : Except StoreError String :=
  match s.key with
  | .literal name => .ok name
  | .placeholder name => .error (.unrenderedPlaceholder name)

/-- The members of a level that a write has to make: those of its default if that is a map, else none. -/
def freshMembers (s : PathStep) : Json.Members :=
  match s.default? with
  | some (.obj members) => members
  | _ => []

end PathStep

namespace Json

/-- The value below `v` at the end of the steps; absent if a step leads nowhere. -/
def readSteps : List PathStep → Json → Except StoreError (Option Json)
  | [], v => .ok (some v)
  | s :: rest, v => do
    let key ← s.literalKey
    match v.member? key with
    | some next => readSteps rest next
    | none => .ok none

/-- Write `value` at the end of the steps below an object. The whole path is named in errors. -/
def writeSteps (path : Path) (value : Json) : List PathStep → Members → Except StoreError Members
  | [], _ => .error .emptyPath
  | [last], members => do
    let key ← last.literalKey
    return Assoc.insert key value members
  | s :: rest, members => do
    let key ← s.literalKey
    let level ←
      match Assoc.get? key members with
      | none | some .null => .ok s.freshMembers
      | some (.obj level) => .ok level
      | some _ => .error (.pathConflict path s)
    let level ← writeSteps path value rest level
    return Assoc.insert key (.obj level) members

/-- Remove the member at the end of the steps below an object, if it is there. -/
def removeSteps : List PathStep → Members → Except StoreError Members
  | [], _ => .error .emptyPath
  | [last], members => do
    let key ← last.literalKey
    return Assoc.erase key members
  | s :: rest, members => do
    let key ← s.literalKey
    match Assoc.get? key members with
    | some (.obj level) => do
      let level ← removeSteps rest level
      return Assoc.insert key (.obj level) members
    | _ => return members

end Json

structure MemoryStore where
  records : SortedMap Json
  coercion : Coercion

namespace MemoryStore

def empty (coercion : Coercion) : MemoryStore :=
  ⟨∅, coercion⟩

def size (s : MemoryStore) : Nat :=
  s.records.size

def find? (s : MemoryStore) (key : RecordKey) : Option Json :=
  s.records.get? key.id

def put (s : MemoryStore) (key : RecordKey) (record : Json.Members) : MemoryStore :=
  { s with records := s.records.insert key.id (.obj record) }

def getField (s : MemoryStore) (key : RecordKey) (path : Path) : Except StoreError (Option Json) :=
  if path.isRoot then .error .emptyPath
  else
    match s.find? key with
    | some record => record.readSteps path.steps
    | none => .ok none

def writeAll : List (Path × Json) → Json.Members → Except StoreError Json.Members
  | [], record => .ok record
  | (path, value) :: rest, record => do
    let record ← Json.writeSteps path value path.steps record
    writeAll rest record

def removeAll : List Path → Json.Members → Except StoreError Json.Members
  | [], record => .ok record
  | path :: rest, record => do
    let record ← Json.removeSteps path.steps record
    removeAll rest record

/-- The record to be written: a new one holds nothing but its key. -/
def target (s : MemoryStore) (key : RecordKey) : Except StoreError Json.Members :=
  match s.find? key with
  | some (.obj record) => .ok record
  | some _ => .error (.invalidRecord key)
  | none => .ok [(key.name, key.value)]

def setFields (s : MemoryStore) (key : RecordKey) (updates : List (Path × Json)) :
    Except StoreError MemoryStore := do
  let record ← s.target key
  let record ← writeAll updates record
  return s.put key record

/-- Absent records and absent fields are left alone. -/
def removeFields (s : MemoryStore) (key : RecordKey) (paths : List Path) :
    Except StoreError MemoryStore :=
  match s.find? key with
  | some (.obj record) => do
    let record ← removeAll paths record
    return s.put key record
  | _ => return s

/-- Replace a record; the key is added to it if it has no such member. -/
def putRecord (s : MemoryStore) (key : RecordKey) (record : Json) : Except StoreError MemoryStore :=
  match record with
  | .obj members =>
    let members :=
      if Assoc.contains key.name members then members else Assoc.insert key.name key.value members
    .ok (s.put key members)
  | _ => .error (.invalidRecord key)

def deleteRecord (s : MemoryStore) (key : RecordKey) : Bool × MemoryStore :=
  ((s.find? key).isSome, { s with records := s.records.erase key.id })

/-- The record has the attribute that the key names, with an equal value. -/
def hasKey (key : RecordKey) (record : Json) : Bool :=
  (record.member? key.name).any key.value.same

def readAll (record : Json) : List Path → Except StoreError (List (Option Json))
  | [] => .ok []
  | p :: rest => do
    let v ← record.readSteps p.steps
    let vs ← readAll record rest
    return v :: vs

def readRows (paths : List Path) : List Json → Except StoreError (List (List (Option Json)))
  | [] => .ok []
  | record :: rest => do
    let row ← readAll record paths
    let rows ← readRows paths rest
    return row :: rows

/-- The records with the key in ascending order of their ids, at most `limit` of them. -/
def selected (s : MemoryStore) (key : RecordKey) (limit : Option Nat) : List Json :=
  let found := s.records.values.filter (hasKey key)
  match limit with
  | some n => found.take n
  | none => found

def queryByKey (s : MemoryStore) (key : RecordKey) (paths : List Path) (limit : Option Nat) :
    Except StoreError (List (List (Option Json))) :=
  if paths.any Path.isRoot then .error .emptyPath else readRows paths (s.selected key limit)

/-- A read leaves the store as it is. -/
def reading {α : Type} (f : MemoryStore → Except StoreError α) : StoreM MemoryStore α :=
  fun s => (f s, s)

/-- A write replaces the store if it succeeds and leaves it as it is if it fails. -/
def writing (f : MemoryStore → Except StoreError MemoryStore) : StoreM MemoryStore Unit :=
  fun s =>
    match f s with
    | .ok s' => (.ok (), s')
    | .error e => (.error e, s)

instance : DocumentStore MemoryStore where
  getField key path := reading fun s => s.getField key path
  setFields key updates := writing fun s => s.setFields key updates
  removeFields key paths := writing fun s => s.removeFields key paths
  putRecord key record := writing fun s => s.putRecord key record
  getRecord key := reading fun s => .ok (s.find? key)
  deleteRecord key := fun s => (.ok (s.deleteRecord key).1, (s.deleteRecord key).2)
  queryByKey key paths limit := reading fun s => s.queryByKey key paths limit
  coercion s := s.coercion

end MemoryStore

end DocSchema
