import DocSchema.Proofs.Path.Rendering
import DocSchema.Proofs.Store.Steps
import DocSchema.Proofs.Validation.Fitting

/-!
# Fitting records under writes

A record that fits its type still fits after a write of a fitting value to a typed path, if the arguments of the
path give each collection on the way a key of its key type. It fits after every removal, and what is read at a
typed path fits the type at the end of the path.
-/

namespace DocSchema

namespace FieldType

variable {t u : FieldType} {s : PathStep} {args : Arguments}

/-- A keyed collection asks for keys of its key type; an object has its own way to say which members it has. -/
def acceptsKey : FieldType → String → Bool
  | .dict keyType _, key => keyType.accepts key
  | _, _ => true

/-- The arguments give each collection on the way a key that it accepts. -/
def acceptsKeys (args : Arguments) : FieldType → List PathStep → Bool
  | _, [] => true
  | t, s :: rest =>
    t.acceptsKey (s.keyUnder args) && (t.stepType? s).all fun u => u.acceptsKeys args rest

/-- Below an accepted key is what the step leads to, and below another one nothing. -/
theorem entryType?_of_stepType? (step : t.stepType? s = some u) (args : Arguments) :
    t.entryType? (s.keyUnder args) = if t.acceptsKey (s.keyUnder args) then some u else none := by
  unfold stepType? at step
  split at step
  · next model name key =>
    rw [PathStep.keyUnder_literal key]
    exact step
  · cases step
    rfl
  · cases step

theorem typeAt?_cons (typed : t.typeAt? (s :: rest) = some u) :
    ∃ next, t.stepType? s = some next ∧ next.typeAt? rest = some u :=
  Option.bind_eq_some_iff.1 typed

/-- A type with something below it is a container. -/
theorem isContainer_of_typeAt? {rest : List PathStep} (typed : t.typeAt? rest = some u) (below : rest ≠ []) :
    t.isContainer = true := by
  cases rest with
  | nil => exact absurd rfl below
  | cons s rest =>
    obtain ⟨_, step, _⟩ := typeAt?_cons typed
    exact isContainer_of_stepType? step

end FieldType

namespace PathStep

/-- A step without a custom default makes an empty level. -/
theorem freshMembers_of_custom {s : PathStep} (none : s.custom = none) : s.freshMembers = [] := by
  obtain ⟨key, type, custom⟩ := s
  cases none
  cases type <;> rfl

end PathStep

namespace Fits

open Json (Members)

variable {t u : FieldType} {args : Arguments} {steps : List PathStep}

/-- A write of a fitting value to a typed path. -/
theorem write {path : Path} {value : Json} {members after : Members} (typed : t.typeAt? steps = some u)
    (accepted : t.acceptsKeys args steps = true) (plain : ∀ s ∈ steps, s.custom = none) (fits : Fits u value)
    (whole : Fits t (.obj members))
    (success : Json.writeSteps path value (steps.map (PathStep.under args)) members = .ok after) :
    Fits t (.obj after) := by
  induction steps generalizing t members after with
  | nil => cases success
  | cons s rest ih =>
    obtain ⟨next, step, typed⟩ := FieldType.typeAt?_cons typed
    have container := FieldType.isContainer_of_stepType? step
    rw [FieldType.acceptsKeys, Bool.and_eq_true, step, Option.all_some] at accepted
    have entry := FieldType.entryType?_of_stepType? step args
    rw [if_pos accepted.1] at entry
    obtain ⟨key, w, literal, rfl, written⟩ := Json.writeSteps_cons_ok success
    cases literal
    refine whole.insert container entry ?_
    rcases written with ⟨last, rfl⟩ | ⟨more, level, below, start, written, rfl⟩
    · rw [List.map_eq_nil_iff.1 last] at typed
      cases typed
      exact fits
    · have deeper : rest ≠ [] := fun last => more (List.map_eq_nil_iff.2 last)
      refine ih typed accepted.2 (fun r member => plain r (List.mem_cons_of_mem s member)) ?_ written
      rcases start with present | ⟨rfl, -⟩
      · obtain ⟨inner, found, inside⟩ := whole.entry container (Assoc.mem_of_get? present)
        rw [entry] at found
        cases found
        exact inside
      · have fresh : (s.under args).freshMembers = [] :=
          PathStep.freshMembers_of_custom (plain s List.mem_cons_self)
        rw [fresh]
        exact .nil (FieldType.isContainer_of_typeAt? typed deeper)

/-- Every removal. -/
theorem remove {steps : List PathStep} {members after : Members} (whole : Fits t (.obj members))
    (success : Json.removeSteps steps members = .ok after) : Fits t (.obj after) := by
  induction steps generalizing t members after with
  | nil => cases success
  | cons s rest ih =>
    cases whole with
    | any => exact .any _
    | map => exact .map _
    | members container declared typed =>
      have whole : Fits t (.obj members) := .members container declared typed
      obtain ⟨key, -, ⟨-, rfl⟩ | ⟨-, rfl | ⟨level, below, present, removed, rfl⟩⟩⟩ :=
        Json.removeSteps_cons_ok success
      · exact .of_entries container fun name v member => whole.entry container (List.mem_filter.1 member).1
      · exact whole
      · obtain ⟨inner, found, inside⟩ := whole.entry container (Assoc.mem_of_get? present)
        exact whole.insert container found (ih inside removed)

/-- What is read at a typed path. -/
theorem read {v w : Json} (typed : t.typeAt? steps = some u) (whole : Fits t v)
    (success : Json.readSteps (steps.map (PathStep.under args)) v = .ok (some w)) : Fits u w := by
  induction steps generalizing t v with
  | nil =>
    cases typed
    cases success
    exact whole
  | cons s rest ih =>
    obtain ⟨next, step, typed⟩ := FieldType.typeAt?_cons typed
    have container := FieldType.isContainer_of_stepType? step
    have entry := FieldType.entryType?_of_stepType? step args
    unfold List.map Json.readSteps at success
    obtain ⟨key, literal, onward⟩ := Traced.except_bind_ok_iff.1 success
    cases literal
    split at onward
    · next below present =>
      cases v with
      | obj members =>
        obtain ⟨inner, found, inside⟩ := whole.entry container (Assoc.mem_of_get? present)
        rw [entry] at found
        obtain ⟨-, same⟩ := Option.ite_none_right_eq_some.1 found
        cases same
        exact ih typed inside onward
      | _ => cases present
    · cases onward

end Fits

end DocSchema
