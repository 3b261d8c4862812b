import DocSchema.Proofs.Schema.Registry

/-!
# The fields of a schema itself

In a schema compiled at the root every place is that of a top-level field or lies below one that holds other
places. The descriptors of the top-level fields are their places, in declaration order.
-/

namespace DocSchema

namespace FieldType

/-- Values of the type hold other places of a schema. -/
def isContainer : FieldType → Bool
  | .object _ | .dict _ _ => true
  | _ => false

end FieldType

namespace Field

theorem pathIn_prefix_levelIn (owner : ObjectSchema) (parent : Path) (f : FieldDecl) (item : FieldType)
    (n : Nat) : (f.pathIn owner parent).steps <+: (f.levelIn owner parent item n).steps := by
  induction n with
  | zero => exact List.prefix_rfl
  | succ n ih => exact (ih.trans (List.prefix_append _ _)).trans (List.prefix_append _ _)

/-- A top-level field is registered under its name. -/
theorem pathText_place_root (table : String) (schema : ObjectSchema) (f : FieldDecl) :
    (f.place table schema Path.root).pathText = f.name := by
  simp [FieldDescriptor.pathText, Path.text, place, pathIn, Path.child, Path.root, step, PathStep.literal,
    PathStep.withCustom, StepKey.segment]

end Field

section Root

variable {levels : Nat} {schema : ObjectSchema}

/-- A container field of a model that is met at the root, or below a container field of the schema, lies at or
below a container field of the schema. -/
theorem exists_top_above {owner : ObjectSchema} {parent : Path} {f : FieldDecl}
    (top : parent = Path.root ∧ owner = schema ∨ ∃ g ∈ schema.fields, (g.typeIn schema).isContainer = true ∧
      (g.pathIn schema Path.root).steps <+: parent.steps)
    (declared : f ∈ owner.fields) (container : (f.typeIn owner).isContainer = true) :
    ∃ g ∈ schema.fields, (g.typeIn schema).isContainer = true ∧
      (g.pathIn schema Path.root).steps <+: (f.pathIn owner parent).steps := by
  rcases top with ⟨rfl, rfl⟩ | ⟨g, top, holds, above⟩
  · exact ⟨f, declared, container, List.prefix_rfl⟩
  · exact ⟨g, top, holds, above.trans (List.prefix_append _ _)⟩

theorem Visited.top {region : Region} {owner : ObjectSchema} {parent : Path}
    (visited : Visited levels schema Path.root region owner parent) :
    parent = Path.root ∧ owner = schema ∨ ∃ g ∈ schema.fields, (g.typeIn schema).isContainer = true ∧
      (g.pathIn schema Path.root).steps <+: parent.steps := by
  induction visited with
  | schema => exact .inl ⟨rfl, rfl⟩
  | object _ declared type ih =>
    exact .inr (exists_top_above ih declared (by rw [type]; rfl))
  | item _ declared type _ ih =>
    obtain ⟨g, top, holds, above⟩ := exists_top_above ih declared (by rw [type]; rfl)
    exact .inr ⟨g, top, holds, above.trans (List.prefix_append _ _)⟩
  | level _ declared type _ _ ih =>
    obtain ⟨g, top, holds, above⟩ := exists_top_above ih declared (by rw [type]; rfl)
    exact .inr ⟨g, top, holds,
      (above.trans (Field.pathIn_prefix_levelIn ..)).trans (List.prefix_append _ _)⟩

/-- Every place is that of a top-level field or lies below a top-level container. -/
theorem IsPlace.top {table : String} {d : FieldDescriptor}
    (place : IsPlace table levels schema Path.root d) :
    ∃ f ∈ schema.fields, d = f.place table schema Path.root ∨
      (f.typeIn schema).isContainer = true ∧ (f.pathIn schema Path.root).steps <+: d.path.steps := by
  cases place with
  | field visited declared =>
    rcases visited.top with ⟨rfl, rfl⟩ | ⟨g, top, holds, above⟩
    · exact ⟨_, declared, .inl rfl⟩
    · exact ⟨g, top, .inr ⟨holds, above.trans (List.prefix_append _ _)⟩⟩
  | item visited declared type =>
    obtain ⟨g, top, holds, above⟩ := exists_top_above visited.top declared (by rw [type]; rfl)
    exact ⟨g, top, .inr ⟨holds, above.trans (List.prefix_append _ _)⟩⟩
  | level visited declared type =>
    obtain ⟨g, top, holds, above⟩ := exists_top_above visited.top declared (by rw [type]; rfl)
    exact ⟨g, top, .inr ⟨holds,
      (above.trans (Field.pathIn_prefix_levelIn ..)).trans (List.prefix_append _ _)⟩⟩

end Root

/-- A walk goes on below every field of a model that is not met too deep. -/
theorem Walk.visitFields_result {s : Scope} {owner : ObjectSchema} {parent : Path} {fields : List FieldDecl}
    {ds : List FieldDescriptor} (success : (visitFields s owner parent fields).result = .ok ds)
    (room : parent.depth < Path.maxDepth) : ds = fields.map (Field.place s.table owner parent) := by
  induction fields generalizing ds with
  | nil =>
    cases success
    rfl
  | cons f rest ih =>
    rw [visitFields_cons (describe_of_visitFields_cons success), if_pos room] at success
    obtain ⟨_, _, success⟩ := Traced.bind_ok_iff.1 success
    obtain ⟨_, _, success⟩ := Traced.bind_ok_iff.1 success
    obtain ⟨later, walked, success⟩ := Traced.bind_ok_iff.1 success
    cases success
    rw [List.map_cons, ih walked]

/-- A walk goes on below no field of a model that is met too deep. -/
theorem Walk.visitFields_result_of_deep {s : Scope} {owner : ObjectSchema} {parent : Path} {fields : List FieldDecl}
    {ds : List FieldDescriptor} (success : (visitFields s owner parent fields).result = .ok ds)
    (deep : ¬ parent.depth < Path.maxDepth) : ds = [] := by
  induction fields with
  | nil =>
    cases success
    rfl
  | cons f rest ih =>
    rw [visitFields_cons (describe_of_visitFields_cons success), if_neg deep] at success
    obtain ⟨_, _, success⟩ := Traced.bind_ok_iff.1 success
    exact ih success

/-- The top-level descriptor of a name. -/
def CompiledSchema.field? (c : CompiledSchema) (name : String) : Option FieldDescriptor :=
  c.fields.find? fun d => d.name = name

namespace Compiler

variable {c : Compiler} {table : String} {schema : ObjectSchema} {base : Path} {compiled : CompiledSchema}

theorem compiled_fields (success : (c.compileAt table schema base).result = .ok compiled)
    (room : base.depth < Path.maxDepth) : compiled.fields = schema.fields.map (Field.place table schema base) := by
  obtain ⟨_, _, walked, _⟩ := compileAt_ok success
  exact Walk.visitFields_result walked room

/-- The top-level descriptor of a name is the place of the first field that is declared under it. -/
theorem field?_eq (success : (c.compileAt table schema base).result = .ok compiled)
    (room : base.depth < Path.maxDepth) (name : String) :
    compiled.field? name = (schema.find? name).map (Field.place table schema base) := by
  rw [CompiledSchema.field?, compiled_fields success room, List.find?_map]
  rfl

/-- No two places have the same path text, unless they are one place or too deep. -/
theorem place_eq_of_pathText (success : (c.compileAt table schema base).result = .ok compiled)
    {d e : FieldDescriptor} (first : IsPlace table c.maxNestedDepth schema base d)
    (second : IsPlace table c.maxNestedDepth schema base e) (firstRoom : d.path.depth ≤ Path.maxDepth)
    (secondRoom : e.path.depth ≤ Path.maxDepth) (same : d.pathText = e.pathText) : d = e := by
  have foundFirst := (get?_registry_iff_isPlace rfl success d.pathText d).2 ⟨first, rfl, firstRoom⟩
  have foundSecond := (get?_registry_iff_isPlace rfl success d.pathText e).2 ⟨second, same, secondRoom⟩
  rw [foundFirst] at foundSecond
  exact Option.some.inj foundSecond

/-- A top-level field is registered under its name. -/
theorem get?_of_declared (success : (c.compile table schema).result = .ok compiled) {f : FieldDecl}
    (declared : f ∈ schema.fields) :
    compiled.registry.get? f.name = some (f.place table schema Path.root) := by
  apply (get?_registry_iff_isPlace rfl success _ _).2
  have room : (f.pathIn schema Path.root).depth ≤ Path.maxDepth := by
    simp [Path.maxDepth]
  exact ⟨.field .schema declared, (f.pathText_place_root table schema).symm, room⟩

/-- The descriptor of a top-level name is the place of every field that is declared under it. -/
theorem find?_fields (success : (c.compileAt table schema Path.root).result = .ok compiled) {name : String}
    {d : FieldDescriptor} (found : compiled.fields.find? (fun d => d.name = name) = some d) :
    ∃ f ∈ schema.fields, f.name = name ∧ d = f.place table schema Path.root ∧
      ∀ g ∈ schema.fields, g.name = name → g.place table schema Path.root = d := by
  have room : Path.root.depth < Path.maxDepth := by decide
  rw [compiled_fields success room] at found
  obtain ⟨f, declared, rfl⟩ := List.mem_map.1 (List.mem_of_find?_eq_some found)
  have passed := List.find?_some found
  have named : f.name = name := of_decide_eq_true passed
  refine ⟨f, declared, named, rfl, fun g other same => ?_⟩
  refine place_eq_of_pathText success (.field .schema other) (.field .schema declared) ?_ ?_ ?_
  · exact Field.depth_pathIn schema Path.root g ▸ room
  · exact Field.depth_pathIn schema Path.root f ▸ room
  · rw [Field.pathText_place_root, Field.pathText_place_root, same, named]

end Compiler

end DocSchema
