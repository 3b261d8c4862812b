import DocSchema.Proofs.Action
import DocSchema.Proofs.Schema.KeyName
import DocSchema.Proofs.Schema.Registry

/-!
# Well-declared models

A compilation checks the declarations of every model that it meets: the names of the fields, the use of self
references, and that no name is declared twice. It meets a model where its walk goes, so every model of a compiled
schema is well declared, or lies in one of the types that the walk overlooks: the elements of a list, a collection
that is the value of another one, an indexed collection within a level of another one, and what is too deep.
-/

namespace DocSchema

/-! ## Rules for declarations -/

/-- A self reference stands in the type, outside of an object model. -/
inductive FieldType.HoldsSelfRef : FieldType → Prop
  | here : HoldsSelfRef .selfRef
  | element {element : FieldType} (inside : HoldsSelfRef element) : HoldsSelfRef (.list (some element))
  | value {keyType : KeyType} {valueType : FieldType} (inside : HoldsSelfRef valueType) :
      HoldsSelfRef (.dict keyType valueType)

/-- The name is not empty and leaves to path texts what they need for themselves, and a self reference is the
value of an indexed collection. -/
structure Field.IsWellDeclared (f : FieldDecl) : Prop where
  named : f.name ≠ ""
  unreserved : ∀ c ∈ f.name.toList, c ∉ reservedCharacters
  indexed : f.type.HoldsSelfRef →
    ∃ keyType, f.type = .dict keyType .selfRef ∧ KeyName.isIndexed f.keyVariable = true

structure Model.IsWellDeclared (m : ObjectSchema) : Prop where
  fields : ∀ f ∈ m.fields, f.IsWellDeclared
  distinct : (m.fields.map Field.name).Nodup

namespace FieldType

variable {t : FieldType}

theorem HoldsSelfRef.contains (held : t.HoldsSelfRef) : t.containsSelfRef = true := by
  induction held with
  | here => rfl
  | element _ ih => exact ih
  | value _ ih => exact ih

/-- A self reference that is not misused is the value of a collection. -/
theorem HoldsSelfRef.eq_dict (held : t.HoldsSelfRef) (used : t.misusesSelfRef = false) :
    ∃ keyType, t = .dict keyType .selfRef := by
  unfold misusesSelfRef at used
  split at used
  · exact ⟨_, rfl⟩
  · rw [held.contains] at used
    cases used

end FieldType

/-- A field is described if it is well declared; the names of the other fields do not matter. -/
theorem Field.isWellDeclared_of_describe {table : String} {owner : ObjectSchema} {parent : Path}
    {f : FieldDecl} {d : FieldDescriptor} (success : f.describe table owner parent = .ok d) :
    f.IsWellDeclared := by
  obtain ⟨rfl, indexed⟩ := describe_ok success
  obtain ⟨named, -, -, used⟩ := describe_ok_iff.1 success
  obtain ⟨nonempty, unreserved⟩ := NameFault.ofName?_eq_none_iff.1 named
  refine ⟨nonempty, unreserved, fun held => ?_⟩
  obtain ⟨keyType, type⟩ := held.eq_dict used
  exact ⟨keyType, type, indexed keyType type⟩

/-! ## What entering places rules out -/

namespace Draft

variable {strict : Bool} {draft final : Draft} {ds : List FieldDescriptor}

/-- Two places do not contend for one path text, unless one of them is too deep. -/
def Apart (d e : FieldDescriptor) : Prop :=
  d.path.depth ≤ Path.maxDepth → e.path.depth ≤ Path.maxDepth → d.pathText ≠ e.pathText

theorem fresh_of_enter {next : Draft} {d : FieldDescriptor}
    (success : (draft.enter strict d).result = .ok next) (room : d.path.depth ≤ Path.maxDepth) :
    draft.registry.get? d.pathText = none := by
  unfold enter at success
  rw [if_neg (Nat.not_lt.2 room)] at success
  split at success
  · cases success
  · next new => simpa [SortedMap.contains] using new

/-- Places that are entered are not registered before, and no two of them contend for a path text. -/
theorem apart_of_enterAll (success : (draft.enterAll strict ds).result = .ok final) :
    (∀ d ∈ ds, d.path.depth ≤ Path.maxDepth → draft.registry.get? d.pathText = none) ∧
      ds.Pairwise Apart := by
  induction ds generalizing draft with
  | nil => exact ⟨fun _ member _ => (List.not_mem_nil member).elim, List.Pairwise.nil⟩
  | cons d rest ih =>
    rw [enterAll] at success
    obtain ⟨next, entered, success⟩ := Traced.bind_ok_iff.1 success
    obtain ⟨fresh, apart⟩ := ih success
    refine ⟨fun e member room => ?_, List.pairwise_cons.2 ⟨fun e member here room same => ?_, apart⟩⟩
    · rcases List.mem_cons.1 member with rfl | member
      · exact fresh_of_enter entered room
      · have absent := fresh e member room
        refine Option.eq_none_iff_forall_ne_some.2 fun other found => ?_
        rw [(get?_enter entered e.pathText other).2 (.inl found)] at absent
        cases absent
    · have registered := (get?_enter entered d.pathText d).2 (.inr ⟨rfl, rfl, here⟩)
      rw [same, fresh e member room] at registered
      cases registered

/-- A strict run enters no place that is too deep. -/
theorem depth_le_of_enterAll (success : (draft.enterAll true ds).result = .ok final) {d : FieldDescriptor}
    (member : d ∈ ds) : d.path.depth ≤ Path.maxDepth := by
  induction ds generalizing draft with
  | nil => cases member
  | cons e rest ih =>
    rw [enterAll] at success
    obtain ⟨next, entered, success⟩ := Traced.bind_ok_iff.1 success
    rcases List.mem_cons.1 member with rfl | member
    · unfold enter at entered
      split at entered
      · cases entered
      · next room => exact Nat.not_lt.1 room
    · exact ih success member

end Draft

/-! ## What a walk notes of a model -/

namespace Walk

variable {table : String} {levels : Nat} {schema owner : ObjectSchema} {base parent : Path}

/-- A walk of fields notes their places, one after the other. -/
theorem places_sublist {s : Scope} {fields : List FieldDecl} {ds : List FieldDescriptor}
    (success : (visitFields s owner parent fields).result = .ok ds) :
    (fields.map (Field.place s.table owner parent)).Sublist (visitFields s owner parent fields).notes := by
  induction fields generalizing ds with
  | nil => exact List.nil_sublist _
  | cons f rest ih =>
    have described := describe_of_visitFields_cons success
    rw [visitFields_cons described] at success ⊢
    obtain ⟨_, _, success⟩ := Traced.bind_ok_iff.1 success
    rw [List.map_cons, Traced.note_bind]
    refine List.Sublist.cons_cons _ ?_
    split at success
    · next room =>
      rw [if_pos room]
      obtain ⟨-, _, _, others⟩ := within_bind success
      obtain ⟨_, walked⟩ := others.1
      obtain ⟨later, -⟩ := within_bind walked
      obtain ⟨_, walked⟩ := later.1
      exact (ih walked).trans (later.trans others).2
    · next deep =>
      rw [if_neg deep]
      exact ih success

/-- Where no noted place is too deep, there is room for every level of an indexed collection. -/
theorem depth_levelIn_of_shallow {f : FieldDecl} {item : FieldType} (count index : Nat)
    (shallow : ∀ e ∈ (unrollLevels table f.keyVariable item (f.step (f.typeIn owner)) count index
      (f.levelIn owner parent item index)).notes, e.path.depth ≤ Path.maxDepth)
    (success : (unrollLevels table f.keyVariable item (f.step (f.typeIn owner)) count index
      (f.levelIn owner parent item index)).result = .ok ()) {n : Nat} (low : index ≤ n)
    (high : n < index + count) : (f.levelIn owner parent item n).depth < Path.maxDepth := by
  induction count generalizing index with
  | zero => omega
  | succ count ih =>
    rw [unrollLevels_succ] at shallow success
    -- The first level is noted, so there is room for it; the later ones are in the rest of the walk.
    have here : ((f.levelIn owner parent item index).item (KeyName.level f.keyVariable index) item).depth ≤
        Path.maxDepth := shallow _ List.mem_cons_self
    rw [Path.depth_item] at here
    have room : (f.levelIn owner parent item index).depth < Path.maxDepth := here
    rw [if_pos room] at shallow success
    obtain ⟨-, _, _, onward⟩ := within_bind success
    obtain ⟨_, walked⟩ := onward.1
    obtain ⟨-, _, _, later⟩ := within_bind walked
    obtain ⟨_, walked⟩ := later.1
    rcases Nat.eq_or_lt_of_le low with rfl | low
    · exact room
    · exact ih (index + 1) (fun e noted => shallow e ((later.trans onward).2.subset noted)) walked low (by omega)

/-- Where no noted place is too deep, no model is met too deep. -/
theorem depth_of_shallow {ds : List FieldDescriptor}
    (success : (ofSchema table levels schema base).result = .ok ds)
    (shallow : ∀ e ∈ (ofSchema table levels schema base).notes, e.path.depth ≤ Path.maxDepth)
    (start : base.depth ≤ Path.maxDepth) {region : Region}
    (visited : Visited levels schema base region owner parent) : parent.depth ≤ Path.maxDepth := by
  have field {region owner parent} (f : FieldDecl) (visited : Visited levels schema base region owner parent)
      (room : parent.depth ≤ Path.maxDepth) (declared : f ∈ owner.fields) : parent.depth < Path.maxDepth := by
    have noted := ((within_of_visited success visited room).field declared).2.1
    have inside : (f.pathIn owner parent).depth ≤ Path.maxDepth := shallow _ noted
    rw [Field.depth_pathIn] at inside
    exact inside
  -- The place of a model that is met is itself noted, if there is room for what holds it.
  induction visited with
  | schema => exact start
  | @object region owner model parent f visited declared type ih =>
    rw [Field.depth_pathIn]
    exact field f visited ih declared
  | @item region owner model parent f keyType visited declared type plain ih =>
    have room := field f visited ih declared
    have noted := ((within_of_visited success visited ih).item declared type plain room).1
    exact shallow _ noted
  | @level owner model parent f keyType n visited declared type indexed bound ih =>
    have walked := ((within_of_visited success visited ih).field declared).2.2 (field f visited ih declared)
    rw [visitBelow_indexed type indexed, scopeOf, unrolling_unroll] at walked
    obtain ⟨_, ended⟩ := walked.1
    rw [Path.depth_item]
    exact depth_levelIn_of_shallow _ 0 (fun e noted => shallow e (walked.2.subset noted)) ended (Nat.zero_le n)
      (by omega)

end Walk

namespace Field

/-- The path text of a field at a place depends on its name only. -/
theorem pathText_place_congr {table : String} {owner : ObjectSchema} {parent : Path} {f g : FieldDecl}
    (same : f.name = g.name) :
    (f.place table owner parent).pathText = (g.place table owner parent).pathText := by
  simp [FieldDescriptor.pathText, Path.text, place, pathIn, Path.child, step, PathStep.literal,
    PathStep.withCustom, StepKey.segment, same]

end Field

namespace Compiler

variable {c : Compiler} {table : String} {schema : ObjectSchema} {base : Path} {compiled : CompiledSchema}

/-- A strict compilation that ends well notes no place that is too deep. -/
theorem shallow_of_strict (success : (c.compileAt table schema base).result = .ok compiled)
    (strict : c.strictDepth = true) {d : FieldDescriptor}
    (noted : d ∈ (Walk.ofSchema table c.maxNestedDepth schema base).notes) : d.path.depth ≤ Path.maxDepth := by
  obtain ⟨draft, entered, -, -⟩ := compileAt_ok success
  rw [strict] at entered
  exact Draft.depth_le_of_enterAll entered noted

section Met

variable {region : Region} {owner : ObjectSchema} {parent : Path}

/-- The fields of a model that is met are well declared, even if they are too deep themselves. -/
theorem fields_of_visited (success : (c.compileAt table schema base).result = .ok compiled)
    (visited : Visited c.maxNestedDepth schema base region owner parent) (room : parent.depth ≤ Path.maxDepth)
    {f : FieldDecl} (declared : f ∈ owner.fields) : f.IsWellDeclared := by
  obtain ⟨draft, -, walked, -⟩ := compileAt_ok success
  have described := ((Walk.within_of_visited walked visited room).field declared).1
  exact Field.isWellDeclared_of_describe described

/-- The fields of a model that is met have different names, as far as they are registered. -/
theorem names_nodup_of_visited (success : (c.compileAt table schema base).result = .ok compiled)
    (visited : Visited c.maxNestedDepth schema base region owner parent) (room : parent.depth ≤ Path.maxDepth)
    (shallow : ∀ f ∈ owner.fields, (f.pathIn owner parent).depth ≤ Path.maxDepth) :
    (owner.fields.map Field.name).Nodup := by
  obtain ⟨draft, entered, walked, -⟩ := compileAt_ok success
  have within := Walk.within_of_visited walked visited room
  obtain ⟨_, ended⟩ := within.1
  have noted := (Walk.places_sublist ended).trans within.2
  have apart := (Draft.apart_of_enterAll entered).2.sublist noted
  rw [List.pairwise_map] at apart
  rw [List.Nodup, List.pairwise_map]
  refine apart.imp_of_mem fun {f g} first second apart same => ?_
  exact apart (shallow f first) (shallow g second) (Field.pathText_place_congr same)

end Met

/-- The models that a compilation meets are well declared: in a strict one without exception, in a lenient one
those with room for their fields. -/
theorem isWellDeclared_of_visited (success : (c.compileAt table schema base).result = .ok compiled)
    (start : base.depth ≤ Path.maxDepth) {region : Region} {owner : ObjectSchema} {parent : Path}
    (visited : Visited c.maxNestedDepth schema base region owner parent)
    (room : c.strictDepth = true ∨ parent.depth < Path.maxDepth) : owner.IsWellDeclared := by
  rcases room with strict | room
  · obtain ⟨draft, -, walked, -⟩ := compileAt_ok success
    have noted {d} := shallow_of_strict (d := d) success strict
    have met := Walk.depth_of_shallow walked (fun d => noted) start visited
    refine ⟨fun f => fields_of_visited success visited met, ?_⟩
    refine names_nodup_of_visited success visited met fun f declared => ?_
    have place := ((Walk.within_of_visited walked visited met).field declared).2.1
    exact noted place
  · have met := Nat.le_of_lt room
    refine ⟨fun f => fields_of_visited success visited met, ?_⟩
    exact names_nodup_of_visited success visited met fun f _ => f.depth_pathIn owner parent ▸ room

/-- The types of a schema whose models a compilation does not come to. -/
inductive Overlooks (c : Compiler) (schema : ObjectSchema) (base : Path) : FieldType → Prop
  /-- The elements of a list. -/
  | element {region : Region} {owner : ObjectSchema} {parent : Path} {f : FieldDecl} {element : FieldType}
      (visited : Visited c.maxNestedDepth schema base region owner parent) (declared : f ∈ owner.fields)
      (type : f.type = .list (some element)) : Overlooks c schema base element
  /-- The lists that are values of a collection. -/
  | listValue {region : Region} {owner : ObjectSchema} {parent : Path} {f : FieldDecl} {keyType : KeyType}
      {element : Option FieldType}
      (visited : Visited c.maxNestedDepth schema base region owner parent) (declared : f ∈ owner.fields)
      (type : f.type = .dict keyType (.list element)) : Overlooks c schema base (.list element)
  /-- The collections that are values of a collection. -/
  | dictValue {region : Region} {owner : ObjectSchema} {parent : Path} {f : FieldDecl}
      {keyType innerKeyType : KeyType} {value : FieldType}
      (visited : Visited c.maxNestedDepth schema base region owner parent) (declared : f ∈ owner.fields)
      (type : f.type = .dict keyType (.dict innerKeyType value)) :
      Overlooks c schema base (.dict innerKeyType value)
  /-- The items of an indexed collection that lies in a level of another one. -/
  | unrolled {owner model : ObjectSchema} {parent : Path} {f : FieldDecl} {keyType : KeyType}
      (visited : Visited c.maxNestedDepth schema base .unrolled owner parent) (declared : f ∈ owner.fields)
      (type : f.type = .dict keyType (.object model)) (indexed : KeyName.isIndexed f.keyVariable = true) :
      Overlooks c schema base (.object model)
  /-- The items of an indexed collection that has no level. -/
  | levelless {owner model : ObjectSchema} {parent : Path} {f : FieldDecl} {keyType : KeyType}
      (visited : Visited c.maxNestedDepth schema base .outside owner parent) (declared : f ∈ owner.fields)
      (type : f.type = .dict keyType (.object model)) (indexed : KeyName.isIndexed f.keyVariable = true)
      (none : f.maxNestedDepth.getD c.maxNestedDepth = 0) : Overlooks c schema base (.object model)
  /-- In a lenient compilation the models without room for their fields. -/
  | deep {region : Region} {owner : ObjectSchema} {parent : Path} (lenient : c.strictDepth = false)
      (visited : Visited c.maxNestedDepth schema base region owner parent)
      (depth : Path.maxDepth ≤ parent.depth) : Overlooks c schema base (.object owner)

/-- The model of an object that is the value of a collection is met, or the collection is overlooked. -/
theorem visited_or_overlooks_of_value {region : Region} {owner model : ObjectSchema} {parent : Path}
    {f : FieldDecl} {keyType : KeyType}
    (visited : Visited c.maxNestedDepth schema base region owner parent) (declared : f ∈ owner.fields)
    (type : f.type = .dict keyType (.object model)) :
    (∃ region path, Visited c.maxNestedDepth schema base region model path) ∨
      c.Overlooks schema base (.object model) := by
  have typeIn : f.typeIn owner = .dict keyType (.object model) := by
    simp [Field.typeIn, type, FieldType.within]
  by_cases indexed : KeyName.isIndexed f.keyVariable = true
  · cases region with
    | unrolled => exact .inr (.unrolled visited declared type indexed)
    | outside =>
      rcases Nat.eq_zero_or_pos (f.maxNestedDepth.getD c.maxNestedDepth) with none | some
      · exact .inr (.levelless visited declared type indexed none)
      · exact .inl ⟨_, _, .level visited declared typeIn indexed some⟩
  · exact .inl ⟨_, _, .item visited declared typeIn (Bool.eq_false_iff.2 indexed)⟩

/-- What a model that is met holds is met in turn, or lies in a type that is overlooked. -/
theorem visited_or_overlooked_of_holds {t : FieldType} {model : ObjectSchema} (held : t.Holds model)
    {region : Region} {owner : ObjectSchema} {parent : Path}
    (visited : Visited c.maxNestedDepth schema base region owner parent)
    (type : t = .object owner ∨ ∃ keyType, t = .dict keyType (.object owner)) :
    (∃ region path, Visited c.maxNestedDepth schema base region model path) ∨
      ∃ overlooked, c.Overlooks schema base overlooked ∧ overlooked.Holds model := by
  -- The induction is on the way to the model. A collection of objects is passed in one step with its items.
  induction held generalizing region owner parent with
  | here =>
    rcases type with type | ⟨_, type⟩ <;> cases type
    exact .inl ⟨region, parent, visited⟩
  | element =>
    rcases type with type | ⟨_, type⟩ <;> cases type
  | value _ ih =>
    rcases type with type | ⟨_, type⟩ <;> cases type
    exact ih visited (.inl rfl)
  | @field owner model f declared inside ih =>
    rcases type with type | ⟨_, type⟩ <;> cases type
    cases kind : f.type with
    | object inner =>
      have typeIn : f.typeIn owner = .object inner := by simp [Field.typeIn, kind, FieldType.within]
      exact ih (.object visited declared typeIn) (.inl kind)
    | list element =>
      rw [kind] at inside
      cases inside with
      | element inside => exact .inr ⟨_, .element visited declared kind, inside⟩
    | dict keyType value =>
      have within : value.Holds model := by
        rw [kind] at inside
        cases inside with
        | value inside => exact inside
      cases value with
      | object inner =>
        rcases visited_or_overlooks_of_value visited declared kind with ⟨_, _, met⟩ | overlooked
        · exact ih met (.inr ⟨keyType, kind⟩)
        · exact .inr ⟨_, overlooked, within⟩
      | list => exact .inr ⟨_, .listValue visited declared kind, within⟩
      | dict => exact .inr ⟨_, .dictValue visited declared kind, within⟩
      | _ => cases within
    | _ =>
      rw [kind] at inside
      cases inside

/-- In a compilation that ends well each model of the schema, at whatever depth of objects, lists and collections,
is well declared or lies in a type that is overlooked. Where a model is met the rules hold even below overlooked
types: if there is room for the model but not for its fields, then each of these is well declared. -/
theorem models_well_declared_or_overlooked (c : Compiler) (table : String) (schema : ObjectSchema)
    (compiled : CompiledSchema) (success : (c.compile table schema).result = .ok compiled) :
    (∀ model, (FieldType.object schema).Holds model →
      model.IsWellDeclared ∨ ∃ t, c.Overlooks schema Path.root t ∧ t.Holds model) ∧
    ∀ region owner parent, Visited c.maxNestedDepth schema Path.root region owner parent →
      (c.strictDepth = true ∨ parent.depth < Path.maxDepth → owner.IsWellDeclared) ∧
      (parent.depth ≤ Path.maxDepth → ∀ f ∈ owner.fields, f.IsWellDeclared) := by
  have start : Path.root.depth ≤ Path.maxDepth := Nat.zero_le _
  refine ⟨fun model held => ?_, fun region owner parent visited => ⟨?_, ?_⟩⟩
  · have whole : Visited c.maxNestedDepth schema Path.root .outside schema Path.root := .schema
    rcases visited_or_overlooked_of_holds held whole (.inl rfl) with ⟨region, path, met⟩ | overlooked
    · by_cases room : c.strictDepth = true ∨ path.depth < Path.maxDepth
      · exact .inl (isWellDeclared_of_visited success start met room)
      · obtain ⟨lenient, depth⟩ := not_or.1 room
        have deep : c.Overlooks schema Path.root (.object model) :=
          .deep (Bool.eq_false_iff.2 lenient) met (Nat.not_lt.1 depth)
        exact .inr ⟨_, deep, .here model⟩
    · exact .inr overlooked
  · exact isWellDeclared_of_visited success start visited
  · exact fun met f => fields_of_visited success visited met

/-- The path of a child of a child in a tree. -/
def grandchildPath : Path :=
  ⟨[.literal "children" .map, .placeholder "child0" .map, .literal "children" .map, .placeholder "child1" .map]⟩

theorem treeSchema_visited_grandchild :
    Visited Compiler.standard.maxNestedDepth treeSchema Path.root .unrolled treeSchema grandchildPath := by
  have declared : treeSchema.fields[2] ∈ treeSchema.fields := List.getElem_mem _
  have bound : 1 < (treeSchema.fields[2].maxNestedDepth).getD Compiler.standard.maxNestedDepth := by decide
  exact .level .schema declared rfl (by decide) bound

/-- A tree is compiled, and met again as the second level of its own collection. -/
theorem treeSchema_well_declared :
    ∃ compiled, (Compiler.standard.compile "nodes" treeSchema).result = .ok compiled ∧
      (treeSchema.IsWellDeclared ∨ ∃ t, Compiler.standard.Overlooks treeSchema Path.root t ∧ t.Holds treeSchema) ∧
      Visited Compiler.standard.maxNestedDepth treeSchema Path.root .unrolled treeSchema grandchildPath ∧
      grandchildPath.depth < Path.maxDepth ∧ treeSchema.IsWellDeclared ∧
      ∀ f ∈ treeSchema.fields, f.IsWellDeclared := by
  have visited := treeSchema_visited_grandchild
  have room : grandchildPath.depth < Path.maxDepth := by decide
  obtain ⟨compiled, success⟩ := treeSchema_compiles
  obtain ⟨models, met⟩ :=
    models_well_declared_or_overlooked Compiler.standard "nodes" treeSchema compiled success
  obtain ⟨declared, fields⟩ := met .unrolled treeSchema grandchildPath visited
  refine ⟨compiled, success, models treeSchema (.here treeSchema), visited, room, ?_, ?_⟩
  · exact declared (.inr room)
  · exact fields (Nat.le_of_lt room)

/-- A model with a field name that path texts cannot hold. -/
def misnamedSchema (name : String) : ObjectSchema :=
  ⟨name, none, [Field.plain "lead[" .string]⟩

theorem misnamedSchema_not_well_declared (name : String) : ¬ (misnamedSchema name).IsWellDeclared := by
  intro declared
  have free := (declared.fields _ List.mem_cons_self).unreserved '[' (by decide)
  exact free (by decide)

/-- A company with a list of leads, a collection of collections of sites, and an indexed collection of departments
with an indexed collection of teams each. -/
def companySchema : ObjectSchema :=
  let teams := { Field.plain "teams" (.dict .string (.object (misnamedSchema "Team"))) with
    keyName := some "team{i}" }
  let department : ObjectSchema := ⟨"Department", none, [teams]⟩
  ⟨"Company", none,
    [Field.plain "leads" (.list (some (.object (misnamedSchema "Lead")))),
      Field.plain "sites" (.dict .string (.dict .string (.object (misnamedSchema "Site")))),
      { Field.plain "departments" (.dict .string (.object department)) with
        keyName := some "department{i}", maxNestedDepth := some 1 }]⟩

/-- Not every model of a compiled schema is well declared: neither the elements of a list are looked at nor
collections within collections, be they values or fields of the items of an indexed one. -/
theorem companySchema_hides_models :
    (∃ compiled, (Compiler.standard.compile "companies" companySchema).result = .ok compiled) ∧
      ∀ name ∈ ["Lead", "Site", "Team"], (FieldType.object companySchema).Holds (misnamedSchema name) ∧
        ¬ (misnamedSchema name).IsWellDeclared := by
  have ends : (Compiler.standard.compile "companies" companySchema).result.isOk = true := by
    decide
  refine ⟨exists_eq_ok_of_isOk ends, fun name member => ⟨?_, misnamedSchema_not_well_declared name⟩⟩
  have field (n : Fin 3) : companySchema.fields[n] ∈ companySchema.fields := List.getElem_mem _
  simp only [List.mem_cons, List.not_mem_nil, or_false] at member
  rcases member with rfl | rfl | rfl
  · exact .field (field 0) (.element (.here _))
  · exact .field (field 1) (.value (.value (.here _)))
  · exact .field (field 2) (.value (.field List.mem_cons_self (.value (.here _))))

end Compiler

end DocSchema
