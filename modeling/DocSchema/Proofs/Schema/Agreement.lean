import DocSchema.Proofs.Schema.Declarations
import DocSchema.Proofs.Schema.Typing
import DocSchema.Proofs.Store.Fitting
import DocSchema.Proofs.Validation.Positions

/-!
# Registered places and the schema tree

Walking the schema along the path of a registered place leads to the type and the requirement that the place was
registered with, also on the levels of unrolled collections. They are what a check of a whole record asks of the
value at that place.
-/

namespace DocSchema

namespace FieldType

/-- The declaration that a step leads to; an item of a collection has none. -/
def declaration? (t : FieldType) (s : PathStep) : Option FieldDecl :=
  match t, s.key with
  | .object model, .literal name => model.find? name
  | _, _ => none

/-- The declaration that the last of the steps leads to. -/
def declarationAt? (t : FieldType) : List PathStep → Option FieldDecl
  | [] => none
  | [s] => t.declaration? s
  | s :: rest => (t.stepType? s).bind fun u => u.declarationAt? rest

variable {t u : FieldType}

theorem declarationAt?_cons {s : PathStep} {rest : List PathStep} (more : rest ≠ []) :
    t.declarationAt? (s :: rest) = (t.stepType? s).bind fun u => u.declarationAt? rest := by
  cases rest with
  | nil => exact absurd rfl more
  | cons next later => rfl

/-- The declaration at the end of a path with one more step. -/
theorem declarationAt?_child {p : Path} (above : t.typeAt? p.steps = some u) (s : PathStep) :
    t.declarationAt? (p.child s).steps = u.declaration? s := by
  obtain ⟨steps⟩ := p
  change t.declarationAt? (steps ++ [s]) = _
  induction steps generalizing t with
  | nil =>
    cases above
    rfl
  | cons first later ih =>
    obtain ⟨next, step, typed⟩ := typeAt?_cons above
    rw [List.cons_append, declarationAt?_cons (List.append_ne_nil_of_right_ne_nil later (List.cons_ne_nil s [])),
      step]
    exact ih typed

/-- No declaration leads to an item. -/
theorem declarationAt?_item {p : Path} {s : PathStep} {name : String} (dynamic : s.key = .placeholder name)
    (typed : t.typeAt? (p.child s).steps = some u) : t.declarationAt? (p.child s).steps = none := by
  rw [Path.child, typeAt?_append] at typed
  obtain ⟨collection, above, -⟩ := Option.bind_eq_some_iff.1 typed
  rw [declarationAt?_child above]
  unfold declaration?
  rw [dynamic]
  cases collection <;> rfl

/-- A check asks for what a step leads to, if the step is taken by an accepted key. -/
theorem asks?_of_stepType? {s : PathStep} {args : Arguments} (step : t.stepType? s = some u)
    (accepted : t.acceptsKey (s.keyUnder args) = true) :
    t.asks? (s.keyUnder args) = some (u, (t.declaration? s).any Field.required) := by
  unfold stepType? at step
  split at step
  · next model name key =>
    obtain ⟨f, found, rfl⟩ := Option.map_eq_some_iff.1 step
    rw [PathStep.keyUnder_literal key]
    simp only [asks?, declaration?, key, found, Option.map_some, Option.any_some]
    rfl
  · next keyType valueType name key =>
    cases step
    simp only [acceptsKey] at accepted
    simp only [asks?, declaration?, accepted, if_true, Option.any_none]
  · cases step

/-- At the end of steps that are taken by accepted keys, a check asks for the type there, and for a value if the
declaration that the last step leads to does. -/
theorem checkedAt?_of_typeAt? {steps : List PathStep} {args : Arguments} (typed : t.typeAt? steps = some u)
    (accepted : t.acceptsKeys args steps = true) (start : steps ≠ []) (required : Bool) :
    t.checkedAt? required (steps.map (PathStep.keyUnder args)) =
      some (u, (t.declarationAt? steps).any Field.required) := by
  induction steps generalizing t required with
  | nil => exact absurd rfl start
  | cons s rest ih =>
    obtain ⟨next, step, below⟩ := typeAt?_cons typed
    rw [acceptsKeys, Bool.and_eq_true, step, Option.all_some] at accepted
    rw [List.map_cons, checkedAt?, asks?_of_stepType? step accepted.1, Option.bind_some]
    cases rest with
    | nil =>
      cases below
      rfl
    | cons later rest =>
      rw [declarationAt?_cons (List.cons_ne_nil later rest), step]
      exact ih below accepted.2 (List.cons_ne_nil later rest) _

end FieldType

namespace Compiler

variable {c : Compiler} {table : String} {schema : ObjectSchema} {compiled : CompiledSchema}

/-- A place that is not too deep is required if the declaration at the end of its path says so. An item has no
declaration and is not required. -/
theorem required_of_isPlace (success : (c.compileAt table schema Path.root).result = .ok compiled)
    (regular : ObjectSchema.IndexesSelfRefs schema) {d : FieldDescriptor}
    (place : IsPlace table c.maxNestedDepth schema Path.root d) (room : d.path.depth ≤ Path.maxDepth) :
    (d.isCollectionItem = false → ∃ f, (FieldType.object schema).declarationAt? d.path.steps = some f ∧
      d.required = f.required) ∧
    (d.isCollectionItem = true → (FieldType.object schema).declarationAt? d.path.steps = none ∧
      d.required = false) := by
  have typed := typeAt?_of_isPlace success regular place room
  cases place with
  | @field _ owner parent f visited declared =>
    have depth : (f.pathIn owner parent).depth ≤ Path.maxDepth := room
    rw [Field.depth_pathIn] at depth
    have above := typeAt?_of_visited success regular visited (Nat.le_of_lt depth)
    obtain ⟨g, found⟩ := Model.exists_find?_eq_some declared
    have same := place_eq_of_find? success visited depth declared found
    refine ⟨fun _ => ⟨g, ?_, (congrArg FieldDescriptor.required same).symm⟩, fun item => ?_⟩
    · exact (FieldType.declarationAt?_child above _).trans found
    · rw [Field.isCollectionItem_place] at item
      cases item
  | item visited declared type plain =>
    refine ⟨fun field => ?_, fun _ => ⟨FieldType.declarationAt?_item rfl typed, rfl⟩⟩
    rw [FieldDescriptor.isCollectionItem_item] at field
    cases field
  | level visited declared type indexed bound =>
    refine ⟨fun field => ?_, fun _ => ⟨FieldType.declarationAt?_item rfl typed, rfl⟩⟩
    rw [FieldDescriptor.isCollectionItem_item] at field
    cases field

/-- In a schema compiled at the root, in which only collections of self references are indexed, every registered
place has the type at the end of its path. It is required if it is a field whose declaration, the first of its name
in the model that the path leads to, is required, and not if it is an item. A check of a whole record, where it
reaches the place by keys that the collections on the way accept, asks for the same type and the same
requirement. -/
theorem registered_agrees (success : (c.compile table schema).result = .ok compiled)
    (regular : ObjectSchema.IndexesSelfRefs schema) {text : String} {d : FieldDescriptor}
    (registered : compiled.registry.get? text = some d) :
    let whole := FieldType.object schema
    whole.typeAt? d.path.steps = some d.type ∧
    (d.isCollectionItem = false → ∃ f, whole.declarationAt? d.path.steps = some f ∧ d.required = f.required) ∧
    (d.isCollectionItem = true → d.required = false) ∧
    ∀ args, whole.acceptsKeys args d.path.steps = true →
      let keys := d.path.steps.map (PathStep.keyUnder args)
      whole.checkedAt? true keys = some (d.type, d.required) ∧
      ∀ coercion record v r, (compiled.validateRecord coercion record).result = .ok r →
        record.at? keys = some v →
        ∃ s, (Validator.check coercion d.type d.required (keys.foldl Validator.join Validator.rootField) v).result =
          .ok s := by
  intro whole
  obtain ⟨place, -, room⟩ := (get?_registry_iff_isPlace rfl success text d).1 registered
  have typed := typeAt?_of_isPlace success regular place room
  obtain ⟨field, item⟩ := required_of_isPlace success regular place room
  refine ⟨typed, field, fun isItem => (item isItem).2, fun args accepted => ?_⟩
  intro keys
  have start := place.steps_ne_nil
  have flag : (whole.declarationAt? d.path.steps).any Field.required = d.required := by
    cases kind : d.isCollectionItem with
    | false =>
      obtain ⟨f, declared, required⟩ := field kind
      rw [declared, required, Option.any_some]
    | true =>
      obtain ⟨absent, optional⟩ := item kind
      rw [absent, optional, Option.any_none]
  have asked : whole.checkedAt? true keys = some (d.type, d.required) :=
    flag ▸ FieldType.checkedAt?_of_typeAt? typed accepted start true
  refine ⟨asked, fun coercion record v r checked found => ?_⟩
  obtain ⟨_, _, _, shape⟩ := compileAt_ok success
  rw [CompiledSchema.validateRecord, FieldDescriptor.validate_result, shape] at checked
  exact Validator.check_at checked found asked

theorem treeSchema_indexesSelfRefs : ObjectSchema.IndexesSelfRefs treeSchema := by
  decide

/-- The name of a child's child is a required string, as the name of every node. -/
theorem grandchild_registered_agrees :
    let text := "children.\x7b\x7bchild0\x7d\x7d.children.\x7b\x7bchild1\x7d\x7d.name"
    ObjectSchema.IndexesSelfRefs treeSchema ∧
    ∃ compiled d, (Compiler.standard.compile "nodes" treeSchema).result = .ok compiled ∧
      compiled.registry.get? text = some d ∧ d.isCollectionItem = false ∧
      (FieldType.object treeSchema).typeAt? d.path.steps = some d.type ∧
      ∃ f, (FieldType.object treeSchema).declarationAt? d.path.steps = some f ∧ d.required = f.required := by
  intro text
  obtain ⟨compiled, success⟩ := treeSchema_compiles
  let d : FieldDescriptor := treeSchema.fields[0].place "nodes" treeSchema grandchildPath
  have place : IsPlace "nodes" Compiler.standard.maxNestedDepth treeSchema Path.root d :=
    .field treeSchema_visited_grandchild (List.getElem_mem _)
  have spelled : text = d.pathText := by decide
  have room : d.path.depth ≤ Path.maxDepth := by decide
  have registered : compiled.registry.get? text = some d :=
    (get?_registry_iff_isPlace rfl success text d).2 ⟨place, spelled, room⟩
  have field : d.isCollectionItem = false := rfl
  obtain ⟨typed, declared, -, -⟩ := registered_agrees success treeSchema_indexesSelfRefs registered
  exact ⟨treeSchema_indexesSelfRefs, compiled, d, success, registered, field, typed, declared field⟩

end Compiler

end DocSchema
