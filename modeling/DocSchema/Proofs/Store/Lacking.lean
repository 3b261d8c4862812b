import DocSchema.Proofs.Schema.Descent
import DocSchema.Proofs.Store.Steps
import DocSchema.Proofs.Validation.Lacking

/-!
# Violations under writes

A write of a conforming value at the end of a path, and every removal there, violates nothing off the way along the
path. On the way, a write may make a level that lacks required fields, and a removal may take one away.
-/

namespace DocSchema

/-- No member of a custom map default violates the type of the field. The default may lack fields. -/
def Field.HasSoundDefault (owner : ObjectSchema) (f : FieldDecl) : Prop :=
  ∀ members, f.custom = some (.obj members) → ∀ key v u needed, (key, v) ∈ members →
    (f.typeIn owner).asks? key = some (u, needed) → ¬ Violates u needed v

/-- All custom map defaults inside the type are sound. -/
def FieldType.HasSoundDefaults (t : FieldType) : Prop :=
  ∀ model, t.Holds model → ∀ f ∈ model.fields, f.HasSoundDefault model

theorem FieldType.admits_of_isContainer {t : FieldType} (container : t.isContainer = true)
    (members : Json.Members) : t.admits (.obj members) = true := by
  cases t with
  | object => rfl
  | dict => rfl
  | _ => cases container

theorem PathStep.default?_eq (s : PathStep) : s.default? = s.custom.or s.type.zero? := by
  unfold default?
  cases s.custom <;> rfl

/-- The members of a level that a step down makes come from a sound default. -/
theorem StepsTo.fresh {t u : FieldType} {s : PathStep} {args : Arguments} (step : StepsTo t s u)
    (defaults : t.HasSoundDefaults) {key : String} {v : Json} (member : (key, v) ∈ (s.under args).freshMembers)
    {w : FieldType} {needed : Bool} (asked : u.asks? key = some (w, needed)) : ¬ Violates w needed v := by
  cases step with
  | @field owner f first =>
    have declared := Model.mem_of_find? first
    have default : ((f.step (f.typeIn owner)).under args).default? =
        f.custom.or (f.typeIn owner).storageType.zero? := PathStep.default?_eq _
    unfold PathStep.freshMembers at member
    rw [default] at member
    cases custom : f.custom with
    | none =>
      rw [custom, Option.none_or] at member
      cases kind : (f.typeIn owner).storageType <;> simp [kind, StorageType.zero?] at member
    | some value =>
      rw [custom, Option.some_or] at member
      cases value with
      | obj members => exact defaults owner (.here owner) f declared members custom key v w needed member asked
      | _ => cases member
  | item keyType valueType name type =>
    have empty : ((PathStep.placeholder name type).under args).freshMembers = [] := by
      cases type <;> rfl
    rw [empty] at member
    cases member

namespace ViolatesOff

variable {ways : Ways} {t u : FieldType} {required : Bool} {members after : Json.Members}

/-- A level on a way violates nothing else than its members do. -/
theorem not_of_members (container : t.isContainer = true) (onward : ways.GoesOn)
    (sound : ∀ key v u needed, (key, v) ∈ members → t.asks? key = some (u, needed) → ¬ Violates u needed v) :
    ¬ ViolatesOff ways t required (.obj members) := by
  intro violated
  cases violated with
  | kind other =>
    rw [FieldType.admits_of_isContainer container] at other
    cases other
  | entry member asked inside => exact sound _ _ _ _ member asked inside.violates
  | absent stops => exact stops onward

/-- A write of a conforming value at the end of a path that is one of the ways. -/
theorem not_of_write {args : Arguments} {steps : List PathStep} {path : Path} {value : Json}
    (descent : Descends t steps u) (defaults : t.HasSoundDefaults) (conforms : Conforms u value)
    (success : Json.writeSteps path value (steps.map (PathStep.under args)) members = .ok after)
    (way : ways (steps.map (PathStep.keyUnder args))) (sound : ¬ ViolatesOff ways t required (.obj members)) :
    ¬ ViolatesOff ways t required (.obj after) := by
  induction descent generalizing ways required members after with
  | here => cases success
  | @step t next u s rest first later ih =>
    have onward : ways.GoesOn := ⟨_, _, way⟩
    obtain ⟨key, w, literal, rfl, written⟩ := Json.writeSteps_cons_ok success
    cases literal
    refine fun violated => sound (violated.of_insert onward fun inner needed asked inside => ?_)
    cases first.asks?_eq asked
    rcases written with ⟨last, rfl⟩ | ⟨more, level, below, start, written, rfl⟩
    · rw [List.map_eq_nil_iff] at last
      subst last
      cases later
      exact conforms.not_violates needed inside.violates
    · have deeper : rest ≠ [] := fun last => more (List.map_eq_nil_iff.2 last)
      have defaultsBelow : next.HasSoundDefaults := fun model held => defaults model (first.holds held)
      refine ih defaultsBelow conforms written way ?_ inside
      rcases start with present | ⟨rfl, -⟩
      · exact fun inside => sound (.entry (Assoc.mem_of_get? present) asked inside)
      · have container := later.isContainer deeper
        obtain ⟨r, others, rfl⟩ := List.exists_cons_of_ne_nil deeper
        exact not_of_members container ⟨_, _, way⟩ fun _ _ _ _ member => first.fresh defaults member

/-- Every removal at the end of a path that is one of the ways. -/
theorem not_of_remove {steps : List PathStep} (success : Json.removeSteps steps members = .ok after)
    (way : ways (Path.keys ⟨steps⟩)) (sound : ¬ ViolatesOff ways t required (.obj members)) :
    ¬ ViolatesOff ways t required (.obj after) := by
  induction steps generalizing ways t required members after with
  | nil => cases success
  | cons s rest ih =>
    have onward : ways.GoesOn := ⟨_, _, way⟩
    obtain ⟨key, literal, ⟨-, rfl⟩ | ⟨-, rfl | ⟨level, below, present, removed, rfl⟩⟩⟩ :=
      Json.removeSteps_cons_ok success
    · exact fun violated => sound (violated.of_erase onward)
    · exact sound
    · have named : s.key.name = key := congrArg StepKey.name literal
      have wayBelow : ways.below key (Path.keys ⟨rest⟩) := named ▸ way
      refine fun violated => sound (violated.of_insert onward fun u needed asked => ?_)
      exact ih removed wayBelow fun inside => sound (.entry (Assoc.mem_of_get? present) asked inside)

end ViolatesOff

end DocSchema
