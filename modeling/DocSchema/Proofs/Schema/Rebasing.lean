import DocSchema.Proofs.Schema.Success
import DocSchema.Proofs.Schema.TopLevel

/-!
# Schemas below a base

Compiled below a base, a schema has the places that it has at the root, each moved below the base. The base takes
up depth, so the walk turns back earlier there: it notes a part of the moved places in the same order, and no place
that the walk at the root does not note. So does a walk that unrolls indexed collections into fewer levels. What fits
below the base is registered as at the root.
-/

namespace DocSchema

/-! ## Places below a base -/

namespace Path

/-- The path, begun at the end of `base`. -/
def below (p base : Path) : Path :=
  base.extend p.steps

@[simp] theorem depth_below (p base : Path) : (p.below base).depth = base.depth + p.depth :=
  base.depth_extend p.steps

@[simp] theorem root_below (base : Path) : root.below base = base := by
  simp [below, extend, root]

@[simp] theorem below_root (p : Path) : p.below root = p := by
  simp [below, extend, root]

theorem child_below (p base : Path) (step : PathStep) : (p.child step).below base = (p.below base).child step := by
  simp [below, extend, child]

theorem item_below (p base : Path) (keyName : String) (type : FieldType) :
    (p.item keyName type).below base = (p.below base).item keyName type :=
  p.child_below base _

theorem level_below (p base : Path) (keyName : String) (type : FieldType) (step : PathStep) (n : Nat) :
    (p.level keyName type step n).below base = (p.below base).level keyName type step n := by
  induction n with
  | zero => rfl
  | succ n ih => rw [level, child_below, item_below, ih, level]

/-- Paths with different texts have different texts below a base. -/
theorem text_of_text_below {p q base : Path} (first : p.steps ≠ []) (second : q.steps ≠ [])
    (same : (p.below base).text = (q.below base).text) : p.text = q.text := by
  unfold text below extend at same
  unfold text
  dsimp only at same
  rw [List.map_append, List.map_append] at same
  by_cases start : base.steps.map (fun s => s.key.segment) = []
  · rwa [start, List.nil_append, List.nil_append] at same
  · rw [String.intercalate_append_of_ne_nil start (by simpa using first),
      String.intercalate_append_of_ne_nil start (by simpa using second)] at same
    exact (String.append_right_inj _).1 same

end Path

/-- The place, moved below `base`. -/
def FieldDescriptor.below (d : FieldDescriptor) (base : Path) : FieldDescriptor :=
  { d with path := d.path.below base }

@[simp] theorem FieldDescriptor.below_root (d : FieldDescriptor) : d.below Path.root = d := by
  simp [below]

theorem FieldDescriptor.item_below (table keyName : String) (type : FieldType) (collection base : Path) :
    (item table keyName type collection).below base = item table keyName type (collection.below base) := by
  simp only [item, below, Path.child_below]

namespace Field

variable (table : String) (owner : ObjectSchema) (parent base : Path) (f : FieldDecl)

theorem pathIn_below : (f.pathIn owner parent).below base = f.pathIn owner (parent.below base) :=
  parent.child_below base _

theorem place_below : (f.place table owner parent).below base = f.place table owner (parent.below base) := by
  simp only [place, FieldDescriptor.below, pathIn_below]

theorem levelIn_below (item : FieldType) (n : Nat) :
    (f.levelIn owner parent item n).below base = f.levelIn owner (parent.below base) item n := by
  rw [levelIn, Path.level_below, pathIn_below, levelIn]

/-- A collection that asks for no number of levels itself has more of them if the compiler asks for more. -/
theorem levels_le {low high : Nat} (le : low ≤ high) : f.maxNestedDepth.getD low ≤ f.maxNestedDepth.getD high := by
  cases f.maxNestedDepth with
  | none => exact le
  | some own => exact Nat.le_refl own

theorem describe_below {table : String} {owner : ObjectSchema} {parent base : Path} {f : FieldDecl}
    (described : f.describe table owner parent = .ok (f.place table owner parent)) :
    f.describe table owner (parent.below base) = .ok (f.place table owner (parent.below base)) :=
  describe_ok_iff.2 (describe_ok_iff.1 described)

end Field

section Places

variable {table : String} {levels : Nat} {schema : ObjectSchema} {base : Path}

/-- The models that are met below a base are those that are met below the root. -/
theorem visited_below_iff {region : Region} {owner : ObjectSchema} {parent : Path} :
    Visited levels schema base region owner parent ↔
      ∃ start, Visited levels schema Path.root region owner start ∧ parent = start.below base := by
  constructor
  · intro visited
    induction visited with
    | schema => exact ⟨Path.root, .schema, (Path.root_below base).symm⟩
    | object _ declared type ih =>
      obtain ⟨start, visited, rfl⟩ := ih
      exact ⟨_, .object visited declared type, (Field.pathIn_below ..).symm⟩
    | item _ declared type plain ih =>
      obtain ⟨start, visited, rfl⟩ := ih
      refine ⟨_, .item visited declared type plain, ?_⟩
      rw [Path.item_below, Field.pathIn_below]
    | level _ declared type indexed bound ih =>
      obtain ⟨start, visited, rfl⟩ := ih
      refine ⟨_, .level visited declared type indexed bound, ?_⟩
      rw [Path.item_below, Field.levelIn_below]
  · rintro ⟨start, visited, rfl⟩
    induction visited with
    | schema => exact (Path.root_below base).symm ▸ .schema
    | object _ declared type ih => exact Field.pathIn_below .. ▸ .object ih declared type
    | item _ declared type plain ih =>
      rw [Path.item_below, Field.pathIn_below]
      exact .item ih declared type plain
    | level _ declared type indexed bound ih =>
      rw [Path.item_below, Field.levelIn_below]
      exact .level ih declared type indexed bound

/-- The places below a base are those below the root, moved. -/
theorem isPlace_below_iff {d : FieldDescriptor} :
    IsPlace table levels schema base d ↔
      ∃ e, IsPlace table levels schema Path.root e ∧ d = e.below base := by
  constructor
  · intro place
    cases place with
    | field visited declared =>
      obtain ⟨start, met, rfl⟩ := visited_below_iff.1 visited
      exact ⟨_, .field met declared, (Field.place_below ..).symm⟩
    | item visited declared type plain =>
      obtain ⟨start, met, rfl⟩ := visited_below_iff.1 visited
      refine ⟨_, .item met declared type plain, ?_⟩
      rw [FieldDescriptor.item_below, Field.pathIn_below]
    | level visited declared type indexed bound =>
      obtain ⟨start, met, rfl⟩ := visited_below_iff.1 visited
      refine ⟨_, .level met declared type indexed bound, ?_⟩
      rw [FieldDescriptor.item_below, Field.levelIn_below]
  · rintro ⟨e, place, rfl⟩
    have moved {region owner parent} (visited : Visited levels schema Path.root region owner parent) :
        Visited levels schema base region owner (parent.below base) :=
      visited_below_iff.2 ⟨_, visited, rfl⟩
    cases place with
    | field visited declared => exact Field.place_below .. ▸ .field (moved visited) declared
    | item visited declared type plain =>
      rw [FieldDescriptor.item_below, Field.pathIn_below]
      exact .item (moved visited) declared type plain
    | level visited declared type indexed bound =>
      rw [FieldDescriptor.item_below, Field.levelIn_below]
      exact .level (moved visited) declared type indexed bound

end Places

/-! ## Walks below a base -/

namespace Draft

/-- Places that do not contend for a path text do not contend for one below a base. -/
theorem Apart.below {d e : FieldDescriptor} (apart : Apart d e) (first : d.path.steps ≠ [])
    (second : e.path.steps ≠ []) (base : Path) : Apart (d.below base) (e.below base) := by
  intro roomFirst roomSecond same
  have depthFirst : base.depth + d.path.depth ≤ Path.maxDepth := d.path.depth_below base ▸ roomFirst
  have depthSecond : base.depth + e.path.depth ≤ Path.maxDepth := e.path.depth_below base ▸ roomSecond
  exact apart (by omega) (by omega) (Path.text_of_text_below first second same)

end Draft

namespace Walk

variable {α β γ δ : Type}

/-- The walk with every noted place moved below `base`. -/
def below (x : Walk α) (base : Path) : Walk α :=
  ⟨x.notes.map fun d => d.below base, x.result⟩

@[simp] theorem below_root (x : Walk α) : x.below Path.root = x := by
  simp [below]

theorem bind_below (x : Walk α) (next : α → Walk β) (base : Path) :
    (x >>= next).below base = x.below base >>= fun a => (next a).below base := by
  obtain ⟨notes, _ | a⟩ := x
  · rfl
  · simp [below]

theorem within_pure (a : α) (y : Walk β) : (pure a : Walk α).Within y :=
  ⟨⟨a, rfl⟩, List.nil_sublist _⟩

theorem Within.below {x : Walk α} {y : Walk β} (within : x.Within y) (base : Path) :
    (x.below base).Within (y.below base) :=
  ⟨within.1, within.2.map _⟩

/-- A run is within another if its parts are. -/
theorem Within.bind {x : Walk α} {y : Walk β} {next : α → Walk γ} {other : β → Walk δ} {b : β}
    (first : x.Within y) (ended : y.result = .ok b) (later : ∀ a, (next a).Within (other b)) :
    (x >>= next).Within (y >>= other) := by
  obtain ⟨xs, _ | a⟩ := x
  · obtain ⟨a, failed⟩ := first.1
    cases failed
  · obtain ⟨ys, _ | b⟩ := y
    · cases ended
    · cases ended
      exact ⟨(later a).1, first.2.append (later a).2⟩

/-- Both sides note one place. The walk below the base goes on only where the other one does, too. -/
theorem Within.note_ite {near far : Prop} [Decidable near] [Decidable far] {d : FieldDescriptor} {base : Path}
    {moved beside : Walk α} {onward past : Walk β} (narrower : near → far)
    (goesOn : near → far → moved.Within (onward.below base))
    (turns : ¬ near → far → beside.Within (onward.below base))
    (stays : ¬ near → ¬ far → beside.Within (past.below base)) :
    (do Traced.note (d.below base); if near then moved else beside : Walk α).Within
      ((do Traced.note d; if far then onward else past : Walk β).below base) := by
  rw [bind_below]
  refine Within.bind ⟨⟨(), rfl⟩, List.Sublist.refl _⟩ rfl fun _ => ?_
  by_cases room : near
  · rw [if_pos room, if_pos (narrower room)]
    exact goesOn room (narrower room)
  · rw [if_neg room]
    by_cases wide : far
    · rw [if_pos wide]
      exact turns room wide
    · rw [if_neg wide]
      exact stays room wide

section Below

variable {s t : Scope} {base : Path} {owner : ObjectSchema} {parent : Path}

/-- A walk of fields that are moved below a base is within the walk of the fields, if what lies below each field is. -/
theorem visitFields_within_below {fields : List FieldDecl} {ds : List FieldDescriptor} (table : t.table = s.table)
    (inside : ∀ f ∈ fields, f.describe s.table owner parent = .ok (f.place s.table owner parent) →
      (visitBelow s f (f.place s.table owner parent) f.type).result = .ok () →
      (visitBelow t f ((f.place s.table owner parent).below base) f.type).Within
        ((visitBelow s f (f.place s.table owner parent) f.type).below base))
    (success : (visitFields s owner parent fields).result = .ok ds) :
    (visitFields t owner (parent.below base) fields).Within ((visitFields s owner parent fields).below base) := by
  induction fields generalizing ds with
  | nil => exact within_pure _ _
  | cons f rest ih =>
    obtain ⟨described, -, below, others⟩ := visitFields_cons_ok success
    obtain ⟨later, walked⟩ := others.1
    have rest := ih (fun g member => inside g (List.mem_cons_of_mem f member)) walked
    rw [visitFields_cons described, visitFields_cons (table ▸ Field.describe_below described), table,
      ← Field.place_below]
    refine Within.note_ite ?_ ?_ ?_ ?_
    · rw [Path.depth_below]
      omega
    · intro _ room
      obtain ⟨_, ended⟩ := (below room).1
      rw [bind_below]
      refine (inside f List.mem_cons_self described ended).bind ended fun _ => ?_
      rw [bind_below]
      exact rest.bind walked fun _ => within_pure _ _
    · intro _ room
      -- The walk below the base turns back at this field while the other one goes on. It still meets the rest of the
      -- fields, whose places end the notes of the other walk.
      rw [visitFields_cons described, if_pos room] at success
      obtain ⟨_, _, success⟩ := Traced.bind_ok_iff.1 success
      obtain ⟨-, _, _, onward⟩ := within_bind success
      obtain ⟨_, ended⟩ := onward.1
      exact rest.trans (((within_bind ended).1.trans onward).below base)
    · exact fun _ _ => rest

theorem visitObject_within_below {path : Path} {type : FieldType}
    (walked : ∀ model ds, type = .object model → (visitFields s model path model.fields).result = .ok ds →
      (visitFields t model (path.below base) model.fields).Within
        ((visitFields s model path model.fields).below base))
    (success : (visitObject s path type).result = .ok ()) :
    (visitObject t (path.below base) type).Within ((visitObject s path type).below base) := by
  cases type with
  | object model =>
    unfold visitObject at success ⊢
    obtain ⟨ds, ended, -⟩ := Traced.bind_ok_iff.1 success
    rw [bind_below]
    exact (walked model ds rfl ended).bind ended fun _ => within_pure _ _
  | _ => exact within_pure _ _

/-- What the scope `t` adds below an indexed collection that is moved below a base is within what `s` adds below the
collection where it was. -/
structure Scope.WithinBelow (t s : Scope) (base : Path) : Prop where
  table : t.table = s.table
  unroll {owner : ObjectSchema} {parent : Path} {f : FieldDecl} {keyType : KeyType} {item : FieldType}
    (type : f.typeIn owner = .dict keyType item)
    (ended : (s.unroll f f.keyVariable item (f.pathIn owner parent)).result = .ok ()) :
    (t.unroll f f.keyVariable item (f.pathIn owner (parent.below base))).Within
      ((s.unroll f f.keyVariable item (f.pathIn owner parent)).below base)

/-- The walk of a model that is moved below a base is within the walk of the model. It goes on to smaller models. -/
theorem model_within_below (moves : t.WithinBelow s base) (model : ObjectSchema) (parent : Path)
    {ds : List FieldDescriptor} (success : (visitFields s model parent model.fields).result = .ok ds) :
    (visitFields t model (parent.below base) model.fields).Within
      ((visitFields s model parent model.fields).below base) := by
  -- A self reference below an indexed collection is the scope's own matter, so what is met here is declared inside
  -- the model and smaller than it.
  refine visitFields_within_below moves.table (fun f declared described ended => ?_) success
  have smaller := Model.sizeOf_type_lt declared
  have place : f.place s.table model (parent.below base) = f.place t.table model (parent.below base) := by
    rw [moves.table]
  rw [Field.place_below, place]
  cases type : f.typeIn model with
  | object inner =>
    rw [visitBelow_object type] at ended ⊢
    rw [visitBelow_object type, ← Field.pathIn_below]
    have smaller : sizeOf inner < sizeOf model := by
      rw [FieldType.within_eq_object type, FieldType.object.sizeOf_spec] at smaller
      omega
    refine visitObject_within_below (fun other ds same success => ?_) ended
    cases same
    exact model_within_below moves inner _ success
  | dict keyType item =>
    cases indexed : KeyName.isIndexed f.keyVariable with
    | true =>
      rw [visitBelow_indexed type indexed] at ended ⊢
      rw [visitBelow_indexed type indexed]
      exact moves.unroll type ended
    | false =>
      obtain ⟨dict, walked⟩ := visitBelow_item described type indexed
      rw [walked, visitItem_eq] at ended ⊢
      rw [(visitBelow_item (moves.table ▸ Field.describe_below described) type indexed).2, visitItem_eq,
        moves.table, ← Field.pathIn_below, ← FieldDescriptor.item_below]
      refine Within.note_ite ?_ ?_ ?_ ?_
      · rw [Path.depth_below]
        omega
      · intro _ room
        rw [if_pos room] at ended
        obtain ⟨_, _, ended⟩ := Traced.bind_ok_iff.1 ended
        rw [← Path.item_below]
        refine visitObject_within_below (fun inner ds object success => ?_) ended
        have smaller : sizeOf inner < sizeOf model := by
          rw [dict, FieldType.dict.sizeOf_spec, object, FieldType.object.sizeOf_spec] at smaller
          omega
        exact model_within_below moves inner _ success
      · exact fun _ _ => within_pure _ _
      · exact fun _ _ => within_pure _ _
  | _ =>
    rw [visitBelow_other model (by simp [type]) (by simp [type])]
    exact within_pure _ _
termination_by sizeOf model
decreasing_by
  all_goals exact smaller

/-- Within a level nothing is added. -/
theorem Scope.flat_within_below (table : String) (base : Path) : (Scope.flat table).WithinBelow (.flat table) base :=
  ⟨rfl, fun _ _ => within_pure _ _⟩

/-- The levels of an indexed collection below a base, or no more than some of them. -/
theorem unrollLevels_within_below {table keyName : String} {item : FieldType} {step : PathStep}
    {fewer count : Nat} (le : fewer ≤ count) (index : Nat) (collection : Path)
    (success : (unrollLevels table keyName item step count index collection).result = .ok ()) :
    (unrollLevels table keyName item step fewer index (collection.below base)).Within
      ((unrollLevels table keyName item step count index collection).below base) := by
  induction fewer generalizing count index collection with
  | zero => exact within_pure _ _
  | succ fewer ih =>
    obtain ⟨count, rfl⟩ : ∃ n, count = n + 1 := Nat.exists_eq_add_one.2 (by omega)
    rw [unrollLevels_succ] at success ⊢
    rw [unrollLevels_succ, ← FieldDescriptor.item_below]
    refine Within.note_ite ?_ ?_ ?_ ?_
    · rw [Path.depth_below]
      omega
    · intro _ room
      rw [if_pos room] at success
      obtain ⟨_, _, success⟩ := Traced.bind_ok_iff.1 success
      obtain ⟨_, visited, success⟩ := Traced.bind_ok_iff.1 success
      have later := ih (by omega) (index + 1) _ success
      rw [Path.child_below] at later
      rw [bind_below, ← Path.item_below]
      refine Within.bind (visitObject_within_below (fun model ds _ walked => ?_) visited) visited fun _ => ?_
      · exact model_within_below (Scope.flat_within_below table base) model _ walked
      · exact later
    · exact fun _ _ => within_pure _ _
    · exact fun _ _ => within_pure _ _

theorem Scope.unrolling_within_below (table : String) {low high : Nat} (le : low ≤ high) (base : Path) :
    (Scope.unrolling table low).WithinBelow (.unrolling table high) base where
  table := rfl
  unroll {owner parent f keyType item} _ success := by
    rw [unrolling_unroll] at success ⊢
    rw [unrolling_unroll, ← Field.levelIn_below]
    exact unrollLevels_within_below (f.levels_le le) 0 _ success

/-- A walk below a base, on no more levels, is within the walk where the schema was. -/
theorem ofSchema_within_below {table : String} {low high : Nat} (le : low ≤ high) {schema : ObjectSchema}
    {start : Path} (base : Path) {ds : List FieldDescriptor}
    (success : (ofSchema table high schema start).result = .ok ds) :
    (ofSchema table low schema (start.below base)).Within ((ofSchema table high schema start).below base) :=
  model_within_below (Scope.unrolling_within_below table le base) schema start success

end Below

end Walk

namespace Compiler

variable {c : Compiler} {table : String} {schema : ObjectSchema} {base : Path} {compiled moved : CompiledSchema}

/-- What compiles at the root compiles below every base. -/
theorem compileAt_of_compile (lenient : c.strictDepth = false)
    (success : (c.compile table schema).result = .ok compiled) (base : Path) :
    ∃ moved, (c.compileAt table schema base).result = .ok moved := by
  obtain ⟨⟨fields, walked⟩, apart, -⟩ := compileAt_ok_iff.1 ⟨compiled, success⟩
  have within := Walk.ofSchema_within_below (Nat.le_refl _) base walked
  rw [Path.root_below] at within
  have moved : ((Walk.ofSchema table c.maxNestedDepth schema Path.root).below base).notes.Pairwise Draft.Apart := by
    refine List.pairwise_map.2 (apart.imp_of_mem fun first second apart => ?_)
    exact apart.below (Walk.isPlace_of_noted first).steps_ne_nil (Walk.isPlace_of_noted second).steps_ne_nil base
  refine compileAt_ok_iff.2 ⟨within.1, moved.sublist within.2, fun strict => ?_⟩
  rw [lenient] at strict
  cases strict

/-- The top-level fields below a base are those at the root, moved, if they fit below the base. -/
theorem fields_below (success : (c.compile table schema).result = .ok compiled)
    (ended : (c.compileAt table schema base).result = .ok moved) :
    moved.fields = (compiled.fields.map fun d => d.below base).filter fun d => d.path.depth ≤ Path.maxDepth := by
  rw [compiled_fields success (show Path.root.depth < Path.maxDepth by decide), List.map_map]
  have depth (f : FieldDecl) : ((f.place table schema Path.root).below base).path.depth = base.depth + 1 := by
    rw [Field.place_below, Path.root_below]
    exact f.depth_pathIn schema base
  by_cases room : base.depth < Path.maxDepth
  · rw [compiled_fields ended room, List.filter_eq_self.2]
    · refine List.map_congr_left fun f _ => ?_
      rw [Function.comp_apply, Field.place_below, Path.root_below]
    · intro d member
      obtain ⟨f, -, rfl⟩ := List.mem_map.1 member
      exact decide_eq_true (by rw [Function.comp_apply, depth]; exact room)
  · obtain ⟨_, _, walked, _⟩ := compileAt_ok ended
    rw [Walk.visitFields_result_of_deep walked room]
    refine (List.filter_eq_nil_iff.2 fun d member => ?_).symm
    obtain ⟨f, -, rfl⟩ := List.mem_map.1 member
    rw [decide_eq_true_eq, Function.comp_apply, depth]
    exact room

/-- A schema that a lenient compiler compiles at the root compiles below every base. Registered are then exactly
the descriptors of the compilation at the root, each with its path moved below the base and otherwise as it was,
as far as the moved path is one that a store accepts. The descriptors of the top-level fields are moved and cut
off in the same way and stay in order. -/
theorem compileAt_below_base (c : Compiler) (lenient : c.strictDepth = false) (table : String)
    (schema : ObjectSchema) (base : Path) (compiled : CompiledSchema)
    (success : (c.compile table schema).result = .ok compiled) :
    ∃ moved, (c.compileAt table schema base).result = .ok moved ∧
      (∀ text d, (text, d) ∈ moved.registry.entries ↔
        ∃ e ∈ compiled.registry.values, d = { e with path := ⟨base.steps ++ e.path.steps⟩ } ∧
          text = d.pathText ∧ base.depth + e.path.depth ≤ Path.maxDepth) ∧
      moved.fields = (compiled.fields.map fun e => { e with path := ⟨base.steps ++ e.path.steps⟩ }).filter
        fun d => d.path.depth ≤ Path.maxDepth := by
  obtain ⟨moved, ended⟩ := compileAt_of_compile lenient success base
  refine ⟨moved, ended, fun text d => ?_, fields_below success ended⟩
  rw [mem_registry_entries_iff ended, isPlace_below_iff]
  constructor
  · rintro ⟨⟨e, place, rfl⟩, text, room⟩
    have fits : base.depth + e.path.depth ≤ Path.maxDepth := e.path.depth_below base ▸ room
    exact ⟨e, (mem_registry_values_iff success).2 ⟨place, by omega⟩, rfl, text, fits⟩
  · rintro ⟨e, member, rfl, text, fits⟩
    obtain ⟨place, -⟩ := (mem_registry_values_iff success).1 member
    exact ⟨⟨e, place, rfl⟩, text, (e.path.depth_below base).symm ▸ fits⟩

/-- A path below which there is room for three more steps. -/
def lowBase : Path :=
  ⟨List.replicate 29 (PathStep.literal "x" .map)⟩

/-- A chain of two levels has five places. Below the low base the second level is cut off. -/
theorem chainSchema_compiles_below_lowBase :
    (Compiler.mk 2 false).strictDepth = false ∧
    ∃ compiled, (Compiler.compile ⟨2, false⟩ "nodes" chainSchema).result = .ok compiled ∧
      compiled.registry.size = 5 ∧
      ∃ moved, (Compiler.compileAt ⟨2, false⟩ "nodes" chainSchema lowBase).result = .ok moved ∧
        moved.registry.size = 3 ∧
        (∀ text d, (text, d) ∈ moved.registry.entries ↔
          ∃ e ∈ compiled.registry.values, d = { e with path := ⟨lowBase.steps ++ e.path.steps⟩ } ∧
            text = d.pathText ∧ lowBase.depth + e.path.depth ≤ Path.maxDepth) ∧
        moved.fields = (compiled.fields.map fun e => { e with path := ⟨lowBase.steps ++ e.path.steps⟩ }).filter
          fun d => d.path.depth ≤ Path.maxDepth := by
  have whole : (Compiler.compile ⟨2, false⟩ "nodes" chainSchema).result.toOption.any
      (fun compiled => decide (compiled.registry.size = 5)) = true := by
    decide
  have part : (Compiler.compileAt ⟨2, false⟩ "nodes" chainSchema lowBase).result.toOption.any
      (fun moved => decide (moved.registry.size = 3)) = true := by
    decide
  obtain ⟨compiled, success, size⟩ := exists_eq_ok_of_any whole
  obtain ⟨cut, ended, sizeCut⟩ := exists_eq_ok_of_any part
  obtain ⟨moved, endedMoved, entries, fields⟩ :=
    compileAt_below_base ⟨2, false⟩ rfl "nodes" chainSchema lowBase compiled success
  cases ended.symm.trans endedMoved
  exact ⟨rfl, compiled, success, of_decide_eq_true size, cut, ended, of_decide_eq_true sizeCut, entries,
    fields⟩

end Compiler

end DocSchema
