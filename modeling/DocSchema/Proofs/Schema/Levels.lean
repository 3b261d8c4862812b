import DocSchema.Proofs.Schema.Texts
import Mathlib.Data.List.Nodup

/-!
# Levels of an indexed collection

An indexed collection that is met outside of every unrolled one has a spine: an item on each level, which holds the
collection again. The spine goes as far as its number of levels and the depth of a store allow, and nothing else is
registered in its place. Within a level no other indexed collection has items.
-/

namespace DocSchema

/-- A collection of a model that is met, not too deep for a store. -/
structure Collected (levels : Nat) (schema : ObjectSchema) (base : Path) (region : Region) (owner : ObjectSchema)
    (parent : Path) (f : FieldDecl) (item : FieldType) : Prop where
  visited : Visited levels schema base region owner parent
  declared : f ∈ owner.fields
  type : ∃ keyType, f.typeIn owner = .dict keyType item
  room : parent.depth < Path.maxDepth

/-- Each level adds two steps. -/
theorem Field.depth_levelIn (owner : ObjectSchema) (parent : Path) (f : FieldDecl) (item : FieldType) (n : Nat) :
    (f.levelIn owner parent item n).depth = parent.depth + 1 + 2 * n := by
  induction n with
  | zero => exact f.depth_pathIn owner parent
  | succ n ih =>
    rw [levelIn, Path.level, Path.depth_child, Path.depth_item]
    rw [levelIn] at ih
    omega

namespace Collected

variable {c : Compiler} {table : String} {schema : ObjectSchema} {base : Path} {compiled : CompiledSchema}
  {region otherRegion : Region} {owner other : ObjectSchema} {parent place : Path} {f g : FieldDecl}
  {item otherItem : FieldType}

section One

variable (collected : Collected c.maxNestedDepth schema base region owner parent f item)
include collected

theorem isPlace (table : String) : IsPlace table c.maxNestedDepth schema base (f.place table owner parent) :=
  .field collected.visited collected.declared

theorem fits (table : String) : (f.place table owner parent).path.depth ≤ Path.maxDepth :=
  (f.depth_pathIn owner parent).symm ▸ collected.room

theorem describes (table : String) : (f.place table owner parent).keyName = some f.keyVariable ∧
    (f.place table owner parent).itemType = some item := by
  obtain ⟨keyType, type⟩ := collected.type
  exact Walk.place_dict table parent type

theorem isChecked (success : (c.compileAt table schema base).result = .ok compiled) : f.IsChecked owner :=
  Field.isChecked_of_visited success collected.visited (Nat.le_of_lt collected.room) collected.declared

theorem isSpeakable_level (success : (c.compileAt table schema base).result = .ok compiled) (n : Nat) :
    IsSpeakable (KeyName.level f.keyVariable n) := by
  obtain ⟨keyType, type⟩ := collected.type
  exact KeyName.isSpeakable_level ((collected.isChecked success).keyed keyType item type) n

theorem isSpeakable_key (success : (c.compileAt table schema base).result = .ok compiled)
    (plain : KeyName.isIndexed f.keyVariable = false) : IsSpeakable f.keyVariable := by
  obtain ⟨keyType, type⟩ := collected.type
  exact KeyName.isSpeakable_of_plain ((collected.isChecked success).keyed keyType item type) plain

end One

/-- Collections with one path text are one place. -/
theorem place_eq (success : (c.compileAt table schema base).result = .ok compiled)
    (first : Collected c.maxNestedDepth schema base region owner parent f item)
    (second : Collected c.maxNestedDepth schema base otherRegion other place g otherItem)
    (same : (f.pathIn owner parent).chars = (g.pathIn other place).chars) :
    f.place table owner parent = g.place table other place :=
  Compiler.place_eq_of_pathText success (first.isPlace table) (second.isPlace table) (first.fits table)
    (second.fits table) (String.toList_injective same)

/-- So they have one variable. -/
theorem keyVariable_eq (success : (c.compileAt table schema base).result = .ok compiled)
    (first : Collected c.maxNestedDepth schema base region owner parent f item)
    (second : Collected c.maxNestedDepth schema base otherRegion other place g otherItem)
    (same : (f.pathIn owner parent).chars = (g.pathIn other place).chars) : f.keyVariable = g.keyVariable := by
  have keyNames := congrArg FieldDescriptor.keyName (first.place_eq success second same)
  rw [(first.describes table).1, (second.describes table).1] at keyNames
  exact Option.some.inj keyNames

end Collected

/-! ## Models that are met at one place -/

section Visited

variable {c : Compiler} {table : String} {schema : ObjectSchema} {base : Path} {compiled : CompiledSchema}
  {region otherRegion : Region} {owner other : ObjectSchema} {parent place : Path}

theorem Visited.depth_le {levels : Nat} (visited : Visited levels schema base region owner parent) :
    base.depth ≤ parent.depth := by
  induction visited with
  | schema => exact Nat.le_refl _
  | object _ _ _ ih =>
    rw [Field.depth_pathIn]
    omega
  | item _ _ _ _ ih =>
    rw [Path.depth_item, Field.depth_pathIn]
    omega
  | level _ _ _ _ _ ih =>
    rw [Path.depth_item, Field.depth_levelIn]
    omega

/-- Below the base a model is met at a place of its type. -/
theorem Visited.exists_place {levels : Nat} (table : String)
    (visited : Visited levels schema base region owner parent) :
    owner = schema ∧ parent = base ∨ base.depth < parent.depth ∧
      ∃ d, IsPlace table levels schema base d ∧ d.path = parent ∧ d.type = .object owner := by
  cases visited with
  | schema => exact .inl ⟨rfl, rfl⟩
  | object visited declared type =>
    refine .inr ⟨?_, _, .field visited declared, rfl, type⟩
    rw [Field.depth_pathIn]
    exact Nat.lt_succ_of_le visited.depth_le
  | item visited declared type plain =>
    refine .inr ⟨?_, _, .item visited declared type plain, rfl, rfl⟩
    rw [Path.depth_item, Field.depth_pathIn]
    have := visited.depth_le
    omega
  | level visited declared type indexed bound =>
    refine .inr ⟨?_, _, .level visited declared type indexed bound, rfl, rfl⟩
    rw [Path.depth_item, Field.depth_levelIn]
    have := visited.depth_le
    omega

/-- Only one model is met at a path. -/
theorem Visited.owner_eq (success : (c.compileAt table schema base).result = .ok compiled)
    (first : Visited c.maxNestedDepth schema base region owner parent)
    (second : Visited c.maxNestedDepth schema base otherRegion other parent) (room : parent.depth ≤ Path.maxDepth) :
    owner = other := by
  rcases first.exists_place table, second.exists_place table with
    ⟨⟨rfl, rfl⟩ | ⟨deeper, d, place, path, type⟩,
      ⟨same, start⟩ | ⟨otherDeeper, e, otherPlace, otherPath, otherType⟩⟩
  · exact same.symm
  · exact absurd otherDeeper (Nat.lt_irrefl _)
  · subst start
    exact absurd deeper (Nat.lt_irrefl _)
  · have texts : d.pathText = e.pathText := by rw [FieldDescriptor.pathText, FieldDescriptor.pathText, path, otherPath]
    have equal := Compiler.place_eq_of_pathText success place otherPlace (path ▸ room) (otherPath ▸ room) texts
    rw [← equal, type] at otherType
    exact FieldType.object.inj otherType

end Visited

namespace Collected

variable {c : Compiler} {table : String} {schema : ObjectSchema} {base : Path} {compiled : CompiledSchema}
  {region otherRegion : Region} {owner other : ObjectSchema} {parent place : Path} {f g : FieldDecl}
  {item otherItem : FieldType}

/-- Collections with one path text are one field of one model that is met at one path. -/
theorem unique (success : (c.compileAt table schema base).result = .ok compiled)
    (first : Collected c.maxNestedDepth schema base region owner parent f item)
    (second : Collected c.maxNestedDepth schema base otherRegion other place g otherItem)
    (same : (f.pathIn owner parent).chars = (g.pathIn other place).chars) :
    owner = other ∧ parent = place ∧ f = g ∧ item = otherItem := by
  have equal := first.place_eq success second same
  have paths : f.pathIn owner parent = g.pathIn other place := congrArg FieldDescriptor.path equal
  have parents : parent = place := by
    have steps := congrArg Path.steps paths
    exact congrArg Path.mk (List.append_inj_left' steps rfl)
  have items := congrArg FieldDescriptor.itemType equal
  rw [(first.describes table).2, (second.describes table).2] at items
  subst parents
  have owners := first.visited.owner_eq success second.visited (Nat.le_of_lt first.room)
  subst owners
  have distinct := Compiler.names_nodup_of_visited success first.visited (Nat.le_of_lt first.room)
    fun f _ => (f.depth_pathIn owner parent).symm ▸ first.room
  have names : f.name = g.name := congrArg FieldDescriptor.name equal
  exact ⟨rfl, rfl, List.inj_on_of_nodup_map distinct first.declared second.declared names, Option.some.inj items⟩

end Collected

/-! ## What lies above a place -/

section Above

variable {c : Compiler} {table : String} {schema : ObjectSchema} {base : Path} {compiled : CompiledSchema}
  {region : Region} {owner : ObjectSchema} {parent : Path} {text : List Char}

/-- The text is that of the item of a plain collection in the region. -/
def IsPlainItem (c : Compiler) (schema : ObjectSchema) (base : Path) (region : Region) (text : List Char) : Prop :=
  ∃ owner parent f item, Collected c.maxNestedDepth schema base region owner parent f item ∧
    KeyName.isIndexed f.keyVariable = false ∧ ((f.pathIn owner parent).item f.keyVariable item).chars = text

/-- The text is that of an object on a level of an indexed collection, and the level is not deeper than `depth`. -/
def IsLevelItem (c : Compiler) (schema : ObjectSchema) (base : Path) (depth : Nat) (text : List Char) : Prop :=
  ∃ owner parent f model n, Collected c.maxNestedDepth schema base .outside owner parent f (.object model) ∧
    KeyName.isIndexed f.keyVariable = true ∧ n < f.maxNestedDepth.getD c.maxNestedDepth ∧
    ((f.levelIn owner parent (.object model) n).item (KeyName.level f.keyVariable n) (.object model)).chars = text ∧
    ((f.levelIn owner parent (.object model) n).item (KeyName.level f.keyVariable n) (.object model)).depth ≤ depth

/-- Where the text of a model that is met begins as that of an item below the base and goes on with names of members
only, it lies below an item with that text. -/
theorem Visited.exists_item_above (success : (c.compileAt table schema base).result = .ok compiled)
    (visited : Visited c.maxNestedDepth schema base region owner parent) (room : parent.depth ≤ Path.maxDepth)
    {front t u : List Char} (start : text = base.chars ++ front) (last : front.getLast? = some '\x7d')
    (freeT : '\x7d' ∉ t) (freeU : '\x7d' ∉ u) (same : parent.chars ++ t = text ++ u) :
    IsPlainItem c schema base region text ∨ region = .unrolled ∧ IsLevelItem c schema base parent.depth text := by
  have ends : text.getLast? = some '\x7d' := by
    have filled : front ≠ [] := by
      rintro rfl
      cases last
    rw [start, List.getLast?_append_of_ne_nil _ filled, last]
  induction visited generalizing t with
  | schema =>
    rw [start, List.append_assoc] at same
    rw [List.append_cancel_left same] at freeT
    exact absurd (List.mem_append_left u (List.mem_of_getLast? last)) freeT
  | @object region owner model parent f visited declared type ih =>
    rw [Field.depth_pathIn] at room
    have checked := Field.isChecked_of_visited success visited (by omega) declared
    rw [Field.chars_pathIn, List.append_assoc] at same
    have free : '\x7d' ∉ f.tail parent ++ t := by
      rw [List.mem_append, not_or]
      exact ⟨Field.not_mem_tail checked, freeT⟩
    refine (ih (by omega) free same).imp_right fun ⟨unrolled, levels⟩ => ⟨unrolled, ?_⟩
    obtain ⟨owner, parent, f, model, n, collected, indexed, bound, spelled, depth⟩ := levels
    refine ⟨owner, parent, f, model, n, collected, indexed, bound, spelled, Nat.le_trans depth ?_⟩
    rw [Field.depth_pathIn]
    exact Nat.le_succ _
  | @item region owner model parent f keyType visited declared type plain ih =>
    rw [Path.depth_item, Field.depth_pathIn] at room
    obtain ⟨spelled, -⟩ := append_inj_of_last (Path.getLast?_chars_item _ _ _) ends freeT freeU same
    exact .inl ⟨owner, parent, f, .object model, ⟨visited, declared, ⟨keyType, type⟩, by omega⟩, plain, spelled⟩
  | @level owner model parent f keyType n visited declared type indexed bound ih =>
    have depth := f.depth_levelIn owner parent (.object model) n
    rw [Path.depth_item] at room
    obtain ⟨spelled, -⟩ := append_inj_of_last (Path.getLast?_chars_item _ _ _) ends freeT freeU same
    exact .inr ⟨rfl, owner, parent, f, model, n, ⟨visited, declared, ⟨keyType, type⟩, by omega⟩, indexed, bound,
      spelled, Nat.le_refl _⟩

end Above

/-! ## What stands at a level -/

namespace Collected

variable {c : Compiler} {table : String} {schema : ObjectSchema} {base : Path} {compiled : CompiledSchema}
  {region otherRegion : Region} {owner other : ObjectSchema} {parent place : Path} {f g : FieldDecl}
  {item otherItem : FieldType}

/-- The text of a level goes on behind the base and ends with a variable. -/
theorem exists_front (collected : Collected c.maxNestedDepth schema base region owner parent f item) (n : Nat) :
    ∃ front, ((f.levelIn owner parent item n).item (KeyName.level f.keyVariable n) item).chars = base.chars ++ front ∧
      front.getLast? = some '\x7d' := by
  obtain ⟨rest, above⟩ := collected.visited.chars_prefix.trans (f.chars_prefix_levelIn owner parent item n)
  refine ⟨rest ++ ((f.levelIn owner parent item n).joint ++ ['\x7b', '\x7b'] ++
    ((KeyName.level f.keyVariable n).toList ++ ['\x7d', '\x7d'])), ?_, ?_⟩
  · rw [Path.chars_item, ← above]
    simp only [List.append_assoc]
  · rw [← List.append_assoc, ← List.append_assoc, List.getLast?_append_of_ne_nil _ (List.cons_ne_nil _ _)]
    rfl

variable (success : (c.compileAt table schema base).result = .ok compiled)
include success

/-- A plain collection has another path text than an indexed one. -/
theorem ne_of_plain (plainOne : Collected c.maxNestedDepth schema base region other place g otherItem)
    (plain : KeyName.isIndexed g.keyVariable = false)
    (collected : Collected c.maxNestedDepth schema base otherRegion owner parent f item)
    (indexed : KeyName.isIndexed f.keyVariable = true) :
    (g.pathIn other place).chars ≠ (f.pathIn owner parent).chars := by
  intro same
  rw [plainOne.keyVariable_eq success collected same, indexed] at plain
  cases plain

/-- No model that is met outside of every unrolled collection lies below a level of one. -/
theorem not_above_outside (collected : Collected c.maxNestedDepth schema base .outside owner parent f item)
    (indexed : KeyName.isIndexed f.keyVariable = true) {n : Nat}
    (visited : Visited c.maxNestedDepth schema base .outside other place) (room : place.depth ≤ Path.maxDepth)
    {t u : List Char} (freeT : '\x7d' ∉ t) (freeU : '\x7d' ∉ u) :
    place.chars ++ t ≠ ((f.levelIn owner parent item n).item (KeyName.level f.keyVariable n) item).chars ++ u := by
  intro same
  induction n generalizing other place t u with
  | zero =>
    obtain ⟨front, start, last⟩ := collected.exists_front 0
    rcases visited.exists_item_above success room start last freeT freeU same with
      ⟨_, _, g, _, plainOne, plain, spelled⟩ | ⟨⟨⟩, -⟩
    obtain ⟨collections, -⟩ := Path.item_chars_inj Field.joint_pathIn (Field.joint_levelIn 0)
      (plainOne.isSpeakable_key success plain) (collected.isSpeakable_level success 0) spelled
    exact plainOne.ne_of_plain success plain collected indexed collections
  | succ n ih =>
    obtain ⟨front, start, last⟩ := collected.exists_front (n + 1)
    rcases visited.exists_item_above success room start last freeT freeU same with
      ⟨_, _, g, _, plainOne, plain, spelled⟩ | ⟨⟨⟩, -⟩
    obtain ⟨collections, -⟩ := Path.item_chars_inj Field.joint_pathIn (Field.joint_levelIn (n + 1))
      (plainOne.isSpeakable_key success plain) (collected.isSpeakable_level success (n + 1)) spelled
    rw [Field.chars_pathIn, Field.chars_levelIn_succ] at collections
    exact ih plainOne.visited (Nat.le_of_lt plainOne.room) (Field.not_mem_tail (plainOne.isChecked success))
      (Field.not_mem_tail (collected.isChecked success)) collections

/-- Levels with one text are one level of one collection. -/
theorem eq_of_levels (first : Collected c.maxNestedDepth schema base .outside owner parent f item)
    (indexed : KeyName.isIndexed f.keyVariable = true)
    (second : Collected c.maxNestedDepth schema base .outside other place g otherItem)
    (otherIndexed : KeyName.isIndexed g.keyVariable = true) {m n : Nat}
    (same : ((f.levelIn owner parent item m).item (KeyName.level f.keyVariable m) item).chars =
      ((g.levelIn other place otherItem n).item (KeyName.level g.keyVariable n) otherItem).chars) :
    owner = other ∧ parent = place ∧ f = g ∧ item = otherItem ∧ m = n := by
  induction m generalizing n with
  | zero =>
    obtain ⟨collections, -⟩ := Path.item_chars_inj (Field.joint_levelIn 0) (Field.joint_levelIn n)
      (first.isSpeakable_level success 0) (second.isSpeakable_level success n) same
    cases n with
    | zero =>
      obtain ⟨rfl, rfl, rfl, rfl⟩ := first.unique success second collections
      exact ⟨rfl, rfl, rfl, rfl, rfl⟩
    | succ n =>
      rw [Field.chars_levelIn_succ] at collections
      have start : (f.levelIn owner parent item 0).chars = parent.chars ++ f.tail parent := Field.chars_pathIn _ _ _
      rw [start] at collections
      exact absurd collections (second.not_above_outside success otherIndexed first.visited
        (Nat.le_of_lt first.room) (Field.not_mem_tail (first.isChecked success))
        (Field.not_mem_tail (second.isChecked success)))
  | succ m ih =>
    obtain ⟨collections, -⟩ := Path.item_chars_inj (Field.joint_levelIn (m + 1)) (Field.joint_levelIn n)
      (first.isSpeakable_level success (m + 1)) (second.isSpeakable_level success n) same
    rw [Field.chars_levelIn_succ] at collections
    cases n with
    | zero =>
      have start : (g.levelIn other place otherItem 0).chars = place.chars ++ g.tail place := Field.chars_pathIn _ _ _
      rw [start] at collections
      exact absurd collections.symm (first.not_above_outside success indexed second.visited
        (Nat.le_of_lt second.room) (Field.not_mem_tail (second.isChecked success))
        (Field.not_mem_tail (first.isChecked success)))
    | succ n =>
      rw [Field.chars_levelIn_succ] at collections
      obtain ⟨items, -⟩ := append_inj_of_last (Path.getLast?_chars_item _ _ _) (Path.getLast?_chars_item _ _ _)
        (Field.not_mem_tail (first.isChecked success)) (Field.not_mem_tail (second.isChecked success)) collections
      obtain ⟨owners, places, fields, types, rfl⟩ := ih items
      exact ⟨owners, places, fields, types, rfl⟩

/-- The item of a plain collection does not stand at a level of an indexed one, if only the model itself is met again
at its levels. -/
theorem ne_level_of_plain (collected : Collected c.maxNestedDepth schema base .outside owner parent f item)
    (indexed : KeyName.isIndexed f.keyVariable = true) (regular : ∀ model, item = .object model → model = owner)
    {n : Nat} (plainOne : Collected c.maxNestedDepth schema base region other place g otherItem)
    (plain : KeyName.isIndexed g.keyVariable = false) :
    ((g.pathIn other place).item g.keyVariable otherItem).chars ≠
      ((f.levelIn owner parent item n).item (KeyName.level f.keyVariable n) item).chars := by
  intro same
  induction n generalizing region other place g otherItem with
  | zero =>
    obtain ⟨collections, -⟩ := Path.item_chars_inj Field.joint_pathIn (Field.joint_levelIn 0)
      (plainOne.isSpeakable_key success plain) (collected.isSpeakable_level success 0) same
    exact plainOne.ne_of_plain success plain collected indexed collections
  | succ n ih =>
    obtain ⟨collections, -⟩ := Path.item_chars_inj Field.joint_pathIn (Field.joint_levelIn (n + 1))
      (plainOne.isSpeakable_key success plain) (collected.isSpeakable_level success (n + 1)) same
    rw [Field.chars_pathIn, Field.chars_levelIn_succ] at collections
    obtain ⟨front, start, last⟩ := collected.exists_front n
    rcases plainOne.visited.exists_item_above success (Nat.le_of_lt plainOne.room) start last
        (Field.not_mem_tail (plainOne.isChecked success)) (Field.not_mem_tail (collected.isChecked success))
        collections with
      ⟨_, _, h, _, above, marked, spelled⟩ | ⟨-, _, _, h, model, k, above, marked, bound, spelled, depth⟩
    · exact ih above marked spelled
    · -- The level holds the model that declares the collection, so the collection itself stands here.
      obtain ⟨rfl, rfl, rfl, rfl, rfl⟩ := above.eq_of_levels success marked collected indexed spelled
      cases regular model rfl
      obtain ⟨keyType, type⟩ := above.type
      have again := Collected.mk (.level above.visited above.declared type marked bound) collected.declared
        collected.type (Nat.lt_of_le_of_lt depth plainOne.room)
      refine plainOne.ne_of_plain success plain again indexed ?_
      rw [Field.chars_pathIn, Field.chars_pathIn]
      exact collections

/-- The path of a model that is met outside of every unrolled collection does not lead through a level of one. -/
theorem not_prefix_outside (collected : Collected c.maxNestedDepth schema base .outside owner parent f item)
    (indexed : KeyName.isIndexed f.keyVariable = true) {n : Nat} (outside : region = .outside)
    (visited : Visited c.maxNestedDepth schema base region other place) (room : place.depth ≤ Path.maxDepth) :
    ¬ ((f.levelIn owner parent item n).item (KeyName.level f.keyVariable n) item).steps <+: place.steps := by
  intro above
  have whole := visited
  induction visited with
  | schema =>
    have shorter := above.length_le
    have deeper := (f.levelIn owner parent item n).depth_item (KeyName.level f.keyVariable n) item
    have depth := f.depth_levelIn owner parent item n
    have lower := collected.visited.depth_le
    simp only [Path.depth] at *
    omega
  | @object region _ model _ g visited declared type ih =>
    rw [Field.depth_pathIn] at room
    exact ih outside (by omega) (Path.prefix_of_member rfl above) visited
  | @item region _ model _ g keyType visited declared type plain ih =>
    have met := room
    rw [Path.depth_item, Field.depth_pathIn] at room
    rcases List.prefix_concat_iff.1 above with equal | above
    · subst outside
      have same := congrArg (fun steps => (Path.mk steps).chars ++ []) equal
      exact collected.not_above_outside success indexed whole met List.not_mem_nil List.not_mem_nil same.symm
    · exact ih outside (by omega) (Path.prefix_of_member rfl above) visited
  | level => cases outside

/-- Where one level lies at or below another, they are levels of one collection. -/
theorem eq_of_prefix (first : Collected c.maxNestedDepth schema base .outside owner parent f item)
    (indexed : KeyName.isIndexed f.keyVariable = true)
    (second : Collected c.maxNestedDepth schema base .outside other place g otherItem)
    (otherIndexed : KeyName.isIndexed g.keyVariable = true) {m n : Nat}
    (above : ((f.levelIn owner parent item m).item (KeyName.level f.keyVariable m) item).steps <+:
      ((g.levelIn other place otherItem n).item (KeyName.level g.keyVariable n) otherItem).steps) :
    owner = other ∧ parent = place ∧ f = g ∧ item = otherItem ∧ m ≤ n := by
  have whole {n : Nat} (equal : ((f.levelIn owner parent item m).item (KeyName.level f.keyVariable m) item).steps =
      ((g.levelIn other place otherItem n).item (KeyName.level g.keyVariable n) otherItem).steps) :
      owner = other ∧ parent = place ∧ f = g ∧ item = otherItem ∧ m ≤ n := by
    obtain ⟨owners, places, fields, items, levels⟩ := first.eq_of_levels success indexed second otherIndexed
      (congrArg (fun steps => (Path.mk steps).chars) equal)
    exact ⟨owners, places, fields, items, Nat.le_of_eq levels⟩
  induction n with
  | zero =>
    rcases List.prefix_concat_iff.1 above with equal | above
    · exact whole equal
    · exact absurd (Path.prefix_of_member rfl above)
        (first.not_prefix_outside success indexed rfl second.visited (Nat.le_of_lt second.room))
  | succ n ih =>
    rcases List.prefix_concat_iff.1 above with equal | above
    · exact whole equal
    · obtain ⟨owners, places, fields, items, levels⟩ := ih (Path.prefix_of_member rfl above)
      exact ⟨owners, places, fields, items, Nat.le_succ_of_le levels⟩

end Collected

end DocSchema
