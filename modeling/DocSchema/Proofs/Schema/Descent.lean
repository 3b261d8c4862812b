import DocSchema.Proofs.Schema.Typing
import DocSchema.Proofs.Validation.Positions

/-!
# Descending through a schema

Where no model declares a name twice and only collections of self references are indexed, the path of every place
is made of the steps to the declarations on the way, each with the custom default of its declaration, and of steps
to items. That holds at every depth, and does not depend on what was registered.
-/

namespace DocSchema

/-- One step down: from an object to a declared field, or from a collection to an item. -/
inductive StepsTo : FieldType → PathStep → FieldType → Prop
  | field {owner : ObjectSchema} {f : FieldDecl} (first : owner.find? f.name = some f) :
      StepsTo (.object owner) (f.step (f.typeIn owner)) (f.typeIn owner)
  | item (keyType : KeyType) (valueType : FieldType) (name : String) (type : StorageType) :
      StepsTo (.dict keyType valueType) (.placeholder name type) valueType

/-- The steps lead down from the first type to the second. -/
inductive Descends : FieldType → List PathStep → FieldType → Prop
  | here (t : FieldType) : Descends t [] t
  | step {t u v : FieldType} {s : PathStep} {rest : List PathStep} (first : StepsTo t s u)
      (later : Descends u rest v) : Descends t (s :: rest) v

namespace StepsTo

variable {t u : FieldType} {s : PathStep}

theorem isContainer (step : StepsTo t s u) : t.isContainer = true := by
  cases step <;> rfl

/-- A check asks of a member for the type that the step to it leads to, or for nothing. -/
theorem asks?_eq (step : StepsTo t s u) {args : Arguments} {w : FieldType} {needed : Bool}
    (asked : t.asks? (s.keyUnder args) = some (w, needed)) : w = u := by
  cases step with
  | @field owner f first =>
    have named : (f.step (f.typeIn owner)).keyUnder args = f.name := PathStep.keyUnder_literal rfl args
    rw [FieldType.asks?, named, first] at asked
    cases asked
    rfl
  | item keyType valueType name type =>
    obtain ⟨-, ⟨⟩⟩ := Option.ite_none_right_eq_some.1 asked
    rfl

/-- A step down brings in no other model. -/
theorem holds (step : StepsTo t s u) {model : ObjectSchema} (inside : u.Holds model) : t.Holds model := by
  cases step with
  | field first => exact .of_within (Model.mem_of_find? first) inside
  | item => exact .value inside

end StepsTo

namespace Descends

variable {t u v : FieldType} {steps : List PathStep}

/-- Every path with something below it starts at a container. -/
theorem isContainer (descent : Descends t steps u) (below : steps ≠ []) : t.isContainer = true := by
  cases descent with
  | here => exact absurd rfl below
  | step first => exact first.isContainer

theorem append {s : PathStep} (above : Descends t steps u) (step : StepsTo u s v) :
    Descends t (steps ++ [s]) v := by
  induction above with
  | here => exact .step step (.here v)
  | step first _ ih => exact .step first (ih step)

theorem child {p : Path} {s : PathStep} (above : Descends t p.steps u) (step : StepsTo u s v) :
    Descends t (p.child s).steps v :=
  above.append step

end Descends

section Places

variable {levels : Nat} {schema : ObjectSchema}
  (regular : ObjectSchema.IndexesSelfRefs schema)
  (distinct : ∀ model, (FieldType.object schema).Holds model → (model.fields.map Field.name).Nodup)

section Fields

variable {region : Region} {owner : ObjectSchema} {parent : Path} {f : FieldDecl}
  (visited : Visited levels schema Path.root region owner parent) (declared : f ∈ owner.fields)
include visited declared

include distinct in
/-- A field of a model that is met is one step below it. -/
theorem Visited.descends_pathIn {t : FieldType} {p : Path} (above : Descends t p.steps (.object owner)) :
    Descends t (f.pathIn owner p).steps (f.typeIn owner) :=
  above.child (.field (Model.find?_of_nodup (distinct owner visited.holds) declared))

include distinct in
/-- On every level of an indexed collection of self references the collection is met again. -/
theorem Visited.descends_levelIn {keyType : KeyType} (type : f.typeIn owner = .dict keyType (.object owner))
    (above : Descends (.object schema) parent.steps (.object owner)) (n : Nat) :
    Descends (.object schema) (f.levelIn owner parent (.object owner) n).steps (.dict keyType (.object owner)) := by
  induction n with
  | zero => exact type ▸ visited.descends_pathIn distinct declared above
  | succ n ih =>
    have item := ih.child (.item keyType (.object owner) (KeyName.level f.keyVariable n)
      (FieldType.object owner).storageType)
    exact type ▸ visited.descends_pathIn distinct declared item

end Fields

include regular distinct

theorem Visited.descends {region : Region} {owner : ObjectSchema} {parent : Path}
    (visited : Visited levels schema Path.root region owner parent) :
    Descends (.object schema) parent.steps (.object owner) := by
  induction visited with
  | schema => exact .here _
  | object visited declared type ih => exact type ▸ visited.descends_pathIn distinct declared ih
  | item visited declared type plain ih =>
    have collection := visited.descends_pathIn distinct declared ih
    rw [type] at collection
    exact collection.child (.item ..)
  | level visited declared type indexed bound ih =>
    cases Compiler.item_eq_owner (c := ⟨levels, false⟩) regular visited declared type indexed
    exact (visited.descends_levelIn distinct declared type ih _).child (.item ..)

/-- The path of a place descends to its type. -/
theorem IsPlace.descends {table : String} {d : FieldDescriptor}
    (place : IsPlace table levels schema Path.root d) : Descends (.object schema) d.path.steps d.type := by
  cases place with
  | field visited declared =>
    exact visited.descends_pathIn distinct declared (visited.descends regular distinct)
  | item visited declared type plain =>
    have collection := visited.descends_pathIn distinct declared (visited.descends regular distinct)
    rw [type] at collection
    exact collection.child (.item ..)
  | level visited declared type indexed bound =>
    cases Compiler.item_eq_owner (c := ⟨levels, false⟩) regular visited declared type indexed
    exact (visited.descends_levelIn distinct declared type (visited.descends regular distinct) _).child (.item ..)

end Places

end DocSchema
