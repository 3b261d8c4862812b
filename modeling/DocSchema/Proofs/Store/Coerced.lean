import DocSchema.Proofs.Path.Rendering
import DocSchema.Proofs.Store.Steps
import DocSchema.Proofs.Validation.Idempotence

/-!
# Records that a coercion leaves alone

A coercion that has gone over a value once leaves it alone from then on. A record stays so under a write of such a
value, if the levels that the write makes are filled with such values too, and under every removal.
-/

namespace DocSchema

namespace Json

variable {f : Coercion} {members : Members}

/-- An object is left alone if all of its members are. -/
theorem coerce_obj_iff : (obj members).coerce f = .obj members ↔ ∀ key v, (key, v) ∈ members → v.coerce f = v := by
  have identity : members.map id = members := List.map_id members
  rw [coerce, coerceMembers_eq_map, obj.injEq]
  constructor
  · intro same key v member
    have fixed : (key, v.coerce f) = (key, v) := List.map_inj_left.1 (same.trans identity.symm) _ member
    exact (Prod.mk.inj fixed).2
  · intro each
    refine (List.map_congr_left fun m member => ?_).trans identity
    exact congrArg (m.1, ·) (each m.1 m.2 member)

theorem coerce_insert {key : String} {v : Json} (whole : (obj members).coerce f = .obj members)
    (value : v.coerce f = v) : (obj (Assoc.insert key v members)).coerce f = .obj (Assoc.insert key v members) := by
  refine coerce_obj_iff.2 fun name w member => ?_
  rcases Assoc.mem_insert member with same | member
  · cases same
    exact value
  · exact coerce_obj_iff.1 whole name w member

theorem coerce_erase {key : String} (whole : (obj members).coerce f = .obj members) :
    (obj (Assoc.erase key members)).coerce f = .obj (Assoc.erase key members) :=
  coerce_obj_iff.2 fun name v member => coerce_obj_iff.1 whole name v (List.mem_filter.1 member).1

end Json

namespace PathStep

/-- A custom map default of the step is left alone. -/
def HasCoercedDefault (f : Coercion) (s : PathStep) : Prop :=
  ∀ members, s.custom = some (.obj members) → (Json.obj members).coerce f = .obj members

/-- What a level is made of is the custom default of the step, or nothing. -/
theorem coerce_freshMembers {f : Coercion} {s : PathStep} (default : s.HasCoercedDefault f) :
    (Json.obj s.freshMembers).coerce f = .obj s.freshMembers := by
  obtain ⟨key, type, custom⟩ := s
  cases custom with
  | none => cases type <;> rfl
  | some v =>
    cases v with
    | obj members => exact default members rfl
    | _ => rfl

end PathStep

section Steps

variable {f : Coercion} {steps : List PathStep} {members after : Json.Members}

theorem Json.coerce_writeSteps {path : Path} {value : Json} (defaults : ∀ s ∈ steps, s.HasCoercedDefault f)
    (given : value.coerce f = value) (whole : (obj members).coerce f = .obj members)
    (success : writeSteps path value steps members = .ok after) : (obj after).coerce f = .obj after := by
  induction steps generalizing members after with
  | nil => cases success
  | cons s rest ih =>
    obtain ⟨key, w, -, rfl, written⟩ := writeSteps_cons_ok success
    refine coerce_insert whole ?_
    rcases written with ⟨-, rfl⟩ | ⟨-, level, below, start, written, rfl⟩
    · exact given
    · have begun : (obj level).coerce f = .obj level := by
        rcases start with present | ⟨rfl, -⟩
        · exact coerce_obj_iff.1 whole key _ (Assoc.mem_of_get? present)
        · exact PathStep.coerce_freshMembers (defaults s List.mem_cons_self)
      exact ih (fun r member => defaults r (List.mem_cons_of_mem s member)) begun written

theorem Json.coerce_removeSteps (whole : (obj members).coerce f = .obj members)
    (success : removeSteps steps members = .ok after) : (obj after).coerce f = .obj after := by
  induction steps generalizing members after with
  | nil => cases success
  | cons s rest ih =>
    obtain ⟨key, -, ⟨-, rfl⟩ | ⟨-, rfl | ⟨level, below, present, removed, rfl⟩⟩⟩ := removeSteps_cons_ok success
    · exact coerce_erase whole
    · exact whole
    · exact coerce_insert whole (ih (coerce_obj_iff.1 whole key _ (Assoc.mem_of_get? present)) removed)

theorem MemoryStore.coerce_writeAll {updates : List (Path × Json)}
    (each : ∀ u ∈ updates, (∀ s ∈ u.1.steps, s.HasCoercedDefault f) ∧ u.2.coerce f = u.2)
    (whole : (Json.obj members).coerce f = .obj members) (success : writeAll updates members = .ok after) :
    (Json.obj after).coerce f = .obj after :=
  writeAll_induction (P := fun members => (Json.obj members).coerce f = .obj members)
    (fun u member _ _ now wrote => Json.coerce_writeSteps (each u member).1 (each u member).2 now wrote) whole success

theorem MemoryStore.coerce_removeAll {paths : List Path} (whole : (Json.obj members).coerce f = .obj members)
    (success : removeAll paths members = .ok after) : (Json.obj after).coerce f = .obj after :=
  removeAll_induction (P := fun members => (Json.obj members).coerce f = .obj members)
    (fun _ _ _ _ now removed => Json.coerce_removeSteps now removed) whole success

end Steps

/-- What a check keeps has gone through the coercion. -/
theorem Validator.coerce_of_check {f : Coercion} (idempotent : f.Idempotent) {t : FieldType} {required : Bool}
    {field : String} {v w : Json} {ws : List Mismatch}
    (success : (check f t required field v).result = .ok ⟨some w, ws⟩) : w.coerce f = w := by
  have pruned : Pruned field (v.coerce f) w ws := check_prunes f required field success
  exact pruned.coerce_eq (Json.coerce_coerce idempotent v)

end DocSchema
