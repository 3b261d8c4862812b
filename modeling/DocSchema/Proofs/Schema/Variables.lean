import DocSchema.Proofs.Action
import DocSchema.Proofs.Path.Choice
import DocSchema.Proofs.Schema.Entries
import Mathlib.Data.List.Nodup

/-!
# Variables along a path

The keys of the items on a path can be chosen independently if each collection on it has a variable of its own. The
levels of an indexed collection have. Nothing keeps a schema from giving the variable of a collection to another one
below its items.
-/

namespace DocSchema

/-! ## The variables of a place -/

theorem Path.variableNames_child_literal {s : PathStep} (literal : s.isPlaceholder = false) (p : Path) :
    (p.child s).variableNames = p.variableNames := by
  simp [variableNames, child, literal]

theorem Path.variableNames_item (collection : Path) (keyName : String) (type : FieldType) :
    (collection.item keyName type).variableNames = collection.variableNames ++ [keyName] := by
  rw [variableNames, item, child, List.filter_append, List.map_append]
  rfl

namespace Field

variable (owner : ObjectSchema) (parent : Path) (f : FieldDecl)

theorem variableNames_pathIn : (f.pathIn owner parent).variableNames = parent.variableNames :=
  Path.variableNames_child_literal rfl parent

/-- Each level of a collection adds its own variable. -/
theorem variableNames_levelIn (item : FieldType) (n : Nat) : (f.levelIn owner parent item n).variableNames =
    parent.variableNames ++ (List.range n).map (KeyName.level f.keyVariable) := by
  induction n with
  | zero => rw [levelIn, Path.level, variableNames_pathIn, List.range_zero, List.map_nil, List.append_nil]
  | succ n ih =>
    rw [levelIn, Path.level, Path.variableNames_child_literal rfl, Path.variableNames_item]
    rw [levelIn] at ih
    rw [ih, List.range_succ, List.map_append, List.append_assoc]
    rfl

end Field

/-- A collection within reach lies below an item, of another collection or of the base, that has the same variable.
Indexed collections have their own number of levels, or else `levels`, and a variable for each level. -/
inductive Reuses (levels : Nat) (schema : ObjectSchema) (base : Path) : String → Prop
  | item {region : Region} {owner : ObjectSchema} {parent : Path} {f : FieldDecl} {keyType : KeyType}
      {item : FieldType}
      (visited : Visited levels schema base region owner parent) (declared : f ∈ owner.fields)
      (type : f.typeIn owner = .dict keyType item) (plain : KeyName.isIndexed f.keyVariable = false)
      (room : (f.pathIn owner parent).depth < Path.maxDepth) (above : f.keyVariable ∈ parent.variableNames) :
      Reuses levels schema base f.keyVariable
  | level {owner : ObjectSchema} {parent : Path} {f : FieldDecl} {keyType : KeyType} {item : FieldType} {n : Nat}
      (visited : Visited levels schema base .outside owner parent) (declared : f ∈ owner.fields)
      (type : f.typeIn owner = .dict keyType item) (indexed : KeyName.isIndexed f.keyVariable = true)
      (bound : n < f.maxNestedDepth.getD levels) (room : (f.levelIn owner parent item n).depth < Path.maxDepth)
      (above : KeyName.level f.keyVariable n ∈ parent.variableNames) :
      Reuses levels schema base (KeyName.level f.keyVariable n)

section Distinct

variable {table : String} {levels : Nat} {schema : ObjectSchema} {base : Path} {region : Region}
  {owner : ObjectSchema} {parent : Path} {f : FieldDecl} {keyType : KeyType} {item : FieldType} {n : Nat}

/-- The variable of an item is new if it is not among those of the model that declares the collection. -/
theorem nodup_item_iff : ((f.pathIn owner parent).item f.keyVariable item).variableNames.Nodup ↔
    parent.variableNames.Nodup ∧ f.keyVariable ∉ parent.variableNames := by
  rw [Path.variableNames_item, Field.variableNames_pathIn, ← List.concat_eq_append, List.nodup_concat, and_comm]

/-- The levels of an indexed collection do not get in each other's way. -/
theorem nodup_level_iff (indexed : KeyName.isIndexed f.keyVariable = true) :
    ((f.levelIn owner parent item n).item (KeyName.level f.keyVariable n) item).variableNames.Nodup ↔
      parent.variableNames.Nodup ∧ ∀ m ≤ n, KeyName.level f.keyVariable m ∉ parent.variableNames := by
  have levels : ((List.range (n + 1)).map (KeyName.level f.keyVariable)).Nodup :=
    List.nodup_range.map (KeyName.level_injective indexed)
  rw [Path.variableNames_item, Field.variableNames_levelIn, List.append_assoc, ← List.map_singleton,
    ← List.map_append, ← List.range_succ, List.nodup_append', List.disjoint_right, List.forall_mem_map]
  simp only [levels, true_and, List.mem_range, Nat.lt_succ_iff]

variable (start : base.variableNames.Nodup) (fresh : ∀ name, ¬ Reuses levels schema base name)

include fresh

theorem nodup_item (visited : Visited levels schema base region owner parent) (declared : f ∈ owner.fields)
    (type : f.typeIn owner = .dict keyType item) (plain : KeyName.isIndexed f.keyVariable = false)
    (room : ((f.pathIn owner parent).item f.keyVariable item).depth ≤ Path.maxDepth)
    (before : parent.depth ≤ Path.maxDepth → parent.variableNames.Nodup) :
    ((f.pathIn owner parent).item f.keyVariable item).variableNames.Nodup := by
  rw [Path.depth_item] at room
  have higher := f.depth_pathIn owner parent
  exact nodup_item_iff.2
    ⟨before (by omega), fun above => fresh _ (.item visited declared type plain room above)⟩

theorem nodup_level (visited : Visited levels schema base .outside owner parent) (declared : f ∈ owner.fields)
    (type : f.typeIn owner = .dict keyType item) (indexed : KeyName.isIndexed f.keyVariable = true)
    (bound : n < f.maxNestedDepth.getD levels)
    (room : ((f.levelIn owner parent item n).item (KeyName.level f.keyVariable n) item).depth ≤ Path.maxDepth)
    (before : parent.depth ≤ Path.maxDepth → parent.variableNames.Nodup) :
    ((f.levelIn owner parent item n).item (KeyName.level f.keyVariable n) item).variableNames.Nodup := by
  rw [Path.depth_item] at room
  have higher := Walk.depth_lt_levelIn owner parent f item n
  refine (nodup_level_iff indexed).2 ⟨before (by omega), fun m le above => ?_⟩
  have shallow : (f.levelIn owner parent item m).depth < Path.maxDepth :=
    Nat.lt_of_le_of_lt (Walk.depth_levelIn_mono le) room
  exact fresh _ (.level visited declared type indexed (Nat.lt_of_le_of_lt le bound) shallow above)

include start

/-- On the way to every model within reach, each variable occurs once. -/
theorem Visited.variableNames_nodup (visited : Visited levels schema base region owner parent)
    (room : parent.depth ≤ Path.maxDepth) : parent.variableNames.Nodup := by
  induction visited with
  | schema => exact start
  | object visited declared type ih =>
    rw [Field.variableNames_pathIn]
    rw [Field.depth_pathIn] at room
    exact ih (Nat.le_of_succ_le room)
  | item visited declared type plain ih => exact nodup_item fresh visited declared type plain room ih
  | level visited declared type indexed bound ih => exact nodup_level fresh visited declared type indexed bound room ih

/-- If no variable is reused, it occurs once on the way to every place that a store accepts. -/
theorem IsPlace.variableNames_nodup {d : FieldDescriptor} (place : IsPlace table levels schema base d)
    (room : d.path.depth ≤ Path.maxDepth) : d.path.variableNames.Nodup := by
  cases place with
  | @field region owner parent f visited declared =>
    have deep : (f.pathIn owner parent).depth ≤ Path.maxDepth := room
    rw [Field.depth_pathIn] at deep
    exact (Field.variableNames_pathIn owner parent f).symm ▸
      visited.variableNames_nodup start fresh (Nat.le_of_succ_le deep)
  | item visited declared type plain =>
    exact nodup_item fresh visited declared type plain room (visited.variableNames_nodup start fresh)
  | level visited declared type indexed bound =>
    exact nodup_level fresh visited declared type indexed bound room (visited.variableNames_nodup start fresh)

omit start fresh

/-- A variable that is reused occurs twice on the way to a place that a store accepts. -/
theorem Reuses.exists_place {name : String} (reused : Reuses levels schema base name) (table : String) :
    ∃ d, IsPlace table levels schema base d ∧ d.path.depth ≤ Path.maxDepth ∧ ¬ d.path.variableNames.Nodup := by
  cases reused with
  | @item region owner parent f keyType item visited declared type plain room above =>
    refine ⟨_, .item visited declared type plain, ?_, fun once => (nodup_item_iff.1 once).2 above⟩
    exact (Path.depth_item _ f.keyVariable item).trans_le room
  | @level owner parent f keyType item n visited declared type indexed bound room above =>
    refine ⟨_, .level visited declared type indexed bound, ?_, fun once =>
      ((nodup_level_iff indexed).1 once).2 n (Nat.le_refl n) above⟩
    exact (Path.depth_item _ (KeyName.level f.keyVariable n) item).trans_le room

end Distinct

namespace Compiler

/-- The items that can be addressed. Arguments give the chosen keys to the positions of a registered path exactly if
the choice agrees at the positions of each variable. On all registered paths every choice does so exactly if no
variable is reused. -/
theorem registered_addressable_iff (c : Compiler) (table : String) (schema : ObjectSchema) (base : Path)
    (compiled : CompiledSchema) (success : (c.compileAt table schema base).result = .ok compiled) :
    (∀ text d, (text, d) ∈ compiled.registry.entries →
      (∀ choice, (∃ args, d.path.render args = .ok (d.path.chosen choice)) ↔ d.path.Agrees choice) ∧
      (d.path.Addressable ↔ d.path.variableNames.Nodup)) ∧
    (base.variableNames.Nodup →
      ((∀ text d, (text, d) ∈ compiled.registry.entries → d.path.Addressable) ↔
        ∀ name, ¬ Reuses c.maxNestedDepth schema base name)) := by
  refine ⟨fun text d member => ?_, fun start => ⟨fun addressable name reused => ?_, fun fresh text d member => ?_⟩⟩
  · obtain ⟨place, -, room⟩ := (mem_registry_entries_iff success).1 member
    exact ⟨Path.render_chosen_iff place.steps_ne_nil room, Path.addressable_iff place.steps_ne_nil room⟩
  · obtain ⟨d, place, room, twice⟩ := reused.exists_place table
    have registered := addressable d.pathText d ((mem_registry_entries_iff success).2 ⟨place, rfl, room⟩)
    exact twice ((Path.addressable_iff place.steps_ne_nil room).1 registered)
  · obtain ⟨place, -, room⟩ := (mem_registry_entries_iff success).1 member
    exact (Path.addressable_iff place.steps_ne_nil room).2 (place.variableNames_nodup start fresh room)

theorem treeSchema_addressable :
    Path.root.variableNames.Nodup ∧
    ∃ compiled, (Compiler.standard.compileAt "nodes" treeSchema Path.root).result = .ok compiled ∧
      (∀ text d, (text, d) ∈ compiled.registry.entries → d.path.Addressable) ∧
      ∀ name, ¬ Reuses Compiler.standard.maxNestedDepth treeSchema Path.root name := by
  have run : (Compiler.standard.compileAt "nodes" treeSchema Path.root).result.toOption.any (fun compiled =>
      compiled.registry.entries.all fun e => decide e.2.path.variableNames.Nodup) = true := by
    decide +kernel
  obtain ⟨compiled, success, distinct⟩ := exists_eq_ok_of_any run
  have start : Path.root.variableNames.Nodup := List.nodup_nil
  obtain ⟨each, all⟩ :=
    registered_addressable_iff Compiler.standard "nodes" treeSchema Path.root compiled success
  have addressable : ∀ text d, (text, d) ∈ compiled.registry.entries → d.path.Addressable := fun text d member =>
    (each text d member).2.2 (of_decide_eq_true (List.all_eq_true.1 distinct (text, d) member))
  exact ⟨start, compiled, success, addressable, (all start).1 addressable⟩

/-- Groups by a variable that the members of each group have as well. -/
def clubSchema : ObjectSchema :=
  ⟨"Club", none, [
    ⟨"groups", .dict .string (.object ⟨"Group", none, [
      ⟨"members", .dict .string .string, false, some "id", none, none⟩]⟩), false, some "id", none, none⟩]⟩

/-- No arguments lead to a member whose key differs from that of its group. -/
theorem clubSchema_not_addressable :
    ∃ compiled d, (Compiler.standard.compile "clubs" clubSchema).result = .ok compiled ∧
      compiled.registry.get? "groups.\x7b\x7bid\x7d\x7d.members.\x7b\x7bid\x7d\x7d" = some d ∧
      d.path.variableNames = ["id", "id"] ∧
      ∀ args, d.path.render args ≠ .ok (d.path.chosen fun i => if i = 1 then "g1" else "m1") := by
  have run : (Compiler.standard.compile "clubs" clubSchema).result.toOption.any (fun compiled =>
      (compiled.registry.get? "groups.\x7b\x7bid\x7d\x7d.members.\x7b\x7bid\x7d\x7d").any fun d =>
        decide (d.path.variableNames = ["id", "id"]) &&
          decide ((d.path.steps[1]?).map PathStep.key = some (.placeholder "id")) &&
          decide ((d.path.steps[3]?).map PathStep.key = some (.placeholder "id"))) = true := by
    decide +kernel
  obtain ⟨compiled, success, passed⟩ := exists_eq_ok_of_any run
  obtain ⟨d, registered, passed⟩ := (Option.any_eq_true _ _).1 passed
  simp only [Bool.and_eq_true, decide_eq_true_eq, Option.map_eq_some_iff] at passed
  obtain ⟨⟨names, group⟩, member⟩ := passed
  refine ⟨compiled, d, success, registered, names, fun args rendered => ?_⟩
  have same := Path.agrees_of_render rendered 1 3 "id" group member
  exact absurd same (by decide)

end Compiler

end DocSchema
