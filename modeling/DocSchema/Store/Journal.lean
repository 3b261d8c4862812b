import DocSchema.Store.Basic

/-!
# Journals

A journal stands in front of a store, keeps every call it receives, and passes the call on unless the
operation was made to fail.
-/

namespace DocSchema

inductive StoreCall where
  | getField (key : RecordKey) (path : Path)
  | setFields (key : RecordKey) (updates : List (Path × Json))
  | removeFields (key : RecordKey) (paths : List Path)
  | putRecord (key : RecordKey) (record : Json)
  | getRecord (key : RecordKey)
  | deleteRecord (key : RecordKey)
  | queryByKey (key : RecordKey) (paths : List Path) (limit : Option Nat)
deriving DecidableEq, Repr

namespace StoreCall

def operation : StoreCall → StoreOperation
  | .getField .. => .getField
  | .setFields .. => .setFields
  | .removeFields .. => .removeFields
  | .putRecord .. => .putRecord
  | .getRecord .. => .getRecord
  | .deleteRecord .. => .deleteRecord
  | .queryByKey .. => .queryByKey

def key : StoreCall → RecordKey
  | .getField key _ => key
  | .setFields key _ => key
  | .removeFields key _ => key
  | .putRecord key _ => key
  | .getRecord key => key
  | .deleteRecord key => key
  | .queryByKey key _ _ => key

/-- The paths that a call names. -/
def paths : StoreCall → List Path
  | .getField _ path => [path]
  | .setFields _ updates => updates.map Prod.fst
  | .removeFields _ paths => paths
  | .queryByKey _ paths _ => paths
  | .putRecord .. | .getRecord .. | .deleteRecord .. => []

end StoreCall

structure Journal (σ : Type) where
  store : σ
  calls : List StoreCall
  failing : List StoreOperation

namespace Journal

variable {σ α : Type}

def ofStore (store : σ) : Journal σ :=
  ⟨store, [], []⟩

/-- Note a call, then fail or pass it on. -/
def attempt (call : StoreCall) (action : StoreM σ α) : StoreM (Journal σ) α :=
  fun j =>
    let j := { j with calls := j.calls ++ [call] }
    if j.failing.contains call.operation then (.error (.unavailable call.operation), j)
    else
      let (result, store) := action j.store
      (result, { j with store })

instance [DocumentStore σ] : DocumentStore (Journal σ) where
  getField key path := attempt (.getField key path) (DocumentStore.getField key path)
  setFields key updates := attempt (.setFields key updates) (DocumentStore.setFields key updates)
  removeFields key paths := attempt (.removeFields key paths) (DocumentStore.removeFields key paths)
  putRecord key record := attempt (.putRecord key record) (DocumentStore.putRecord key record)
  getRecord key := attempt (.getRecord key) (DocumentStore.getRecord key)
  deleteRecord key := attempt (.deleteRecord key) (DocumentStore.deleteRecord key)
  queryByKey key paths limit :=
    attempt (.queryByKey key paths limit) (DocumentStore.queryByKey key paths limit)
  coercion j := DocumentStore.coercion j.store

end Journal

end DocSchema
