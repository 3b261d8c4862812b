import DocSchema.Proofs.Path.Rendering
import DocSchema.Proofs.Store.Steps
import DocSchema.Proofs.Validation.Pruning

/-!
# Positions in a checked value

A check of a value goes on to its members, each of which is checked for a type and is required or not. So every
chain of keys leads to what a check of the whole value asks of the value at its end.
-/

namespace DocSchema

namespace FieldType

/-- What a check asks of the member under `key`: its type, and whether it is required. -/
def asks? : FieldType → String → Option (FieldType × Bool)
  | .object model, key => (model.find? key).map fun f => (f.type.within model, f.required)
  | .dict keyType valueType, key => if keyType.accepts key then some (valueType, false) else none
  | _, _ => none

/-- What a check for the type asks of the value under a chain of keys. -/
def checkedAt? (t : FieldType) (required : Bool) : List String → Option (FieldType × Bool)
  | [] => some (t, required)
  | key :: rest => (t.asks? key).bind fun e => e.1.checkedAt? e.2 rest

end FieldType

namespace Json

/-- The value under a chain of keys. -/
def at? (v : Json) : List String → Option Json
  | [] => some v
  | key :: rest => (v.member? key).bind fun next => next.at? rest

/-- A read along rendered steps finds what is under their keys. -/
theorem readSteps_under (args : Arguments) (steps : List PathStep) (v : Json) :
    readSteps (steps.map (PathStep.under args)) v = .ok (v.at? (steps.map (PathStep.keyUnder args))) := by
  induction steps generalizing v with
  | nil => rfl
  | cons s rest ih =>
    rw [List.map_cons, readSteps_cons (PathStep.key_under args s), List.map_cons, at?]
    cases v.member? (s.keyUnder args) with
    | none => rfl
    | some next => exact ih next

end Json

/-- A read of a field below a stored record finds what is under the keys of the path. -/
theorem MemoryStore.getField_under {s : MemoryStore} {key : RecordKey} {record : Json} {p : Path}
    (found : s.find? key = some record) (start : p.steps ≠ []) (args : Arguments) :
    s.getField key (p.under args) = .ok (record.at? (p.steps.map (PathStep.keyUnder args))) := by
  have entered : (p.under args).isRoot = false := by
    simpa [Path.isRoot, Path.under] using start
  simp only [getField, entered, found]
  exact Json.readSteps_under args p.steps record

namespace Validator

variable {coercion : Coercion} {t u : FieldType} {required needed : Bool} {field : String}

/-- A check that ends well has checked each member for what it asks of it. -/
theorem check_entry {members : Json.Members} {r : Validation}
    (success : (check coercion t required field (.obj members)).result = .ok r) {key : String} {v : Json}
    (member : (key, v) ∈ members) (asked : t.asks? key = some (u, needed)) :
    ∃ r, (check coercion u needed (join field key) v).result = .ok r := by
  cases t with
  | object model =>
    obtain ⟨kept, looped, -, -⟩ := (check_object_ok_iff coercion required field).1 success
    obtain ⟨r, checked, -⟩ := mem_kept_of_mem looped member
    obtain ⟨f, found, ⟨⟩⟩ := Option.map_eq_some_iff.1 asked
    simp only [checkMember, found] at checked
    exact ⟨r, checked⟩
  | dict keyType valueType =>
    obtain ⟨kept, looped, -⟩ := (check_dict_ok_iff coercion required field).1 success
    obtain ⟨r, checked, -⟩ := mem_kept_of_mem looped member
    obtain ⟨accepted, ⟨⟩⟩ := Option.ite_none_right_eq_some.1 asked
    simp only [checkEntry, accepted, if_true] at checked
    exact ⟨r, checked⟩
  | _ => cases asked

/-- A check that ends well has checked the value under a chain of keys for what it asks of it. -/
theorem check_at {keys : List String} {w v : Json} {r : Validation}
    (success : (check coercion t required field w).result = .ok r) (found : w.at? keys = some v)
    (asked : t.checkedAt? required keys = some (u, needed)) :
    ∃ r, (check coercion u needed (keys.foldl join field) v).result = .ok r := by
  induction keys generalizing t required field w r with
  | nil =>
    cases found
    cases asked
    exact ⟨r, success⟩
  | cons key rest ih =>
    obtain ⟨next, present, below⟩ := Option.bind_eq_some_iff.1 found
    obtain ⟨⟨inner, flag⟩, entry, asked⟩ := Option.bind_eq_some_iff.1 asked
    cases w with
    | obj members =>
      obtain ⟨inside, checked⟩ := check_entry success (Assoc.mem_of_get? present) entry
      exact ih checked below asked
    | _ => cases present

end Validator

end DocSchema
