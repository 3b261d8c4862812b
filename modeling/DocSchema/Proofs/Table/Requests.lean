import DocSchema.Proofs.Action
import DocSchema.Store.Memory
import DocSchema.Table.Read
import DocSchema.Table.Write

/-!
# Requests to a table

Everything that a table can be asked for, as data, so that a history of a table is a list of requests. A
history goes on after a request that failed.
-/

namespace DocSchema

inductive TableRequest where
  | get (keyValue : Json) (path : String) (arguments : Arguments)
  | getMany (keyValue : Json) (getters : SortedMap FieldGetter)
  | query (key : RecordKey) (getters : SortedMap FieldGetter) (limit : Option Nat)
  | set (keyValue : Json) (path : String) (value : Json) (arguments : Arguments)
  | setRaw (keyValue : Json) (setter : RawSetter)
  | setMany (keyValue : Json) (setters : List Setter)
  | remove (keyValue : Json) (path : String) (arguments : Arguments)
  | removeMany (keyValue : Json) (removers : List FieldRemover)
  | putRecord (record : Json)
  | getRecord (keyValue : Json)
  | deleteRecord (key : RecordKey)

inductive TableReply where
  | validation (result : Validation)
  | row (results : Assoc Validation)
  | rows (results : List (Assoc Validation))
  | report (report : WriteReport)
  | removed
  | stored (dropped : List Mismatch)
  | deleted (existed : Bool)

namespace TableRequest

/-- The request asks only for what is stored. -/
def isRead : TableRequest → Bool
  | .get .. | .getMany .. | .query .. | .getRecord .. => true
  | _ => false

/-- The setters that the request applies. -/
def setters : TableRequest → List Setter
  | .set _ path value arguments => [.checked ⟨path, value, arguments⟩]
  | .setRaw _ setter => [.raw setter]
  | .setMany _ setters => setters
  | _ => []

/-- The removers that the request applies. -/
def removers : TableRequest → List FieldRemover
  | .remove _ path arguments => [⟨path, arguments⟩]
  | .removeMany _ removers => removers
  | _ => []

/-- The texts of the paths that the request writes to or removes. -/
def changedPaths (request : TableRequest) : List String :=
  request.setters.map Setter.path ++ request.removers.map FieldRemover.path

/-- Every value that the request writes is checked against the schema. -/
def IsSafe (request : TableRequest) : Prop :=
  ∀ setter ∈ request.setters, ∃ s, setter = .checked s

end TableRequest

namespace Table

variable {σ : Type} [DocumentStore σ]

def handle (t : Table) : TableRequest → TableM σ TableReply
  | .get keyValue path arguments => do return .validation (← t.get keyValue path arguments)
  | .getMany keyValue getters => do return .row (← t.getMany keyValue getters)
  | .query key getters limit => do return .rows (← t.query key getters limit)
  | .set keyValue path value arguments => do return .report (← t.set keyValue path value arguments)
  | .setRaw keyValue setter => do return .report (← t.setRaw keyValue setter)
  | .setMany keyValue setters => do return .report (← t.setMany keyValue setters)
  | .remove keyValue path arguments => do
    t.remove keyValue path arguments
    return .removed
  | .removeMany keyValue removers => do
    t.removeMany keyValue removers
    return .removed
  | .putRecord record => do return .stored (← t.putRecord record)
  | .getRecord keyValue => do return .validation (← t.getRecord keyValue)
  | .deleteRecord key => do return .deleted (← t.deleteRecord key)

/-- The session after a history of requests. -/
def serve (t : Table) : List TableRequest → Session σ → Session σ
  | [], session => session
  | request :: rest, session => t.serve rest (Action.after (t.handle request) session)

/-- What holds of a store, and still holds after each request of a history, holds after the history. -/
theorem serve_induction {t : Table} {P : σ → Prop} {requests : List TableRequest} {session : Session σ}
    (step : ∀ request ∈ requests, ∀ session : Session σ, P session.store →
      P (Action.after (t.handle request) session).store)
    (start : P session.store) : P (t.serve requests session).store := by
  induction requests generalizing session with
  | nil => exact start
  | cons request rest ih =>
    have first := step request List.mem_cons_self session start
    exact ih (fun later member => step later (List.mem_cons_of_mem request member)) first

end Table

end DocSchema
