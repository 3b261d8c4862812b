import DocSchema.Proofs.Schema.Levels

/-!
# The spine of an indexed collection

The items of the levels of an indexed collection, one below the other. A walk notes them up to the first one that is
too deep, and that one is skipped; so the number of levels and the depth of the collection tell which of them are
registered.
-/

namespace DocSchema

/-- The item of one level of an indexed collection. -/
def Field.spine (table : String) (owner : ObjectSchema) (parent : Path) (f : FieldDecl) (item : FieldType)
    (level : Nat) : FieldDescriptor :=
  .item table (KeyName.level f.keyVariable level) item (f.levelIn owner parent item level)

theorem Field.depth_spine (table : String) (owner : ObjectSchema) (parent : Path) (f : FieldDecl) (item : FieldType)
    (n : Nat) : (f.spine table owner parent item n).path.depth = (f.pathIn owner parent).depth + 1 + 2 * n := by
  have collection := f.depth_levelIn owner parent item n
  have deeper := (f.levelIn owner parent item n).depth_item (KeyName.level f.keyVariable n) item
  rw [depth_pathIn]
  change ((f.levelIn owner parent item n).item (KeyName.level f.keyVariable n) item).depth = _
  omega

/-! ## What a walk reaches -/

/-- The places that a walk comes to before it turns back: what holds them is not too deep. -/
inductive Reached (table : String) (levels : Nat) (schema : ObjectSchema) (base : Path) : FieldDescriptor → Prop
  | field {region : Region} {owner : ObjectSchema} {parent : Path} {f : FieldDecl}
      (visited : Visited levels schema base region owner parent) (declared : f ∈ owner.fields)
      (room : parent.depth ≤ Path.maxDepth) : Reached table levels schema base (f.place table owner parent)
  | item {region : Region} {owner : ObjectSchema} {parent : Path} {f : FieldDecl} {item : FieldType}
      (collected : Collected levels schema base region owner parent f item)
      (plain : KeyName.isIndexed f.keyVariable = false) :
      Reached table levels schema base (.item table f.keyVariable item (f.pathIn owner parent))
  | level {owner : ObjectSchema} {parent : Path} {f : FieldDecl} {item : FieldType} {n : Nat}
      (collected : Collected levels schema base .outside owner parent f item)
      (indexed : KeyName.isIndexed f.keyVariable = true) (bound : n < f.maxNestedDepth.getD levels)
      (fits : ∀ m < n, (f.levelIn owner parent item m).depth < Path.maxDepth) :
      Reached table levels schema base (f.spine table owner parent item n)

namespace Walk

variable {s : Scope} {table : String} {levels : Nat} {schema : ObjectSchema} {base : Path} {region : Region}
  {owner : ObjectSchema} {parent : Path} {f : FieldDecl} {item : FieldType} {e : FieldDescriptor}

/-- A walk reaches what it notes, if that holds of the levels that its scope adds. -/
theorem Scope.keeps_reached
    (added : ∀ {owner parent f item e}, Collected levels schema base region owner parent f item →
      KeyName.isIndexed f.keyVariable = true →
      e ∈ (s.unroll f f.keyVariable item (f.pathIn owner parent)).notes → Reached s.table levels schema base e) :
    s.Keeps (fun owner parent => Visited levels schema base region owner parent ∧ parent.depth ≤ Path.maxDepth)
      (Reached s.table levels schema base) where
  field met declared := .field met.1 declared met.2
  object met declared room type := ⟨.object met.1 declared type, (Field.depth_pathIn _ _ _).symm ▸ room⟩
  item met declared room type plain := .item ⟨met.1, declared, ⟨_, type⟩, room⟩ plain
  itemModel met declared room type plain := by
    refine ⟨.item met.1 declared type plain, ?_⟩
    rw [Path.depth_item, Field.depth_pathIn]
    exact room
  levels met declared room type indexed noted := added ⟨met.1, declared, ⟨_, type⟩, room⟩ indexed noted

theorem Scope.flat_keeps_reached (table : String) :
    (Scope.flat table).Keeps
      (fun owner parent => Visited levels schema base .unrolled owner parent ∧ parent.depth ≤ Path.maxDepth)
      (Reached table levels schema base) :=
  Scope.keeps_reached fun _ _ noted => nomatch noted

/-- The levels are reached one after the other, each behind those that fit. -/
theorem reached_of_unrollLevels (collected : Collected levels schema base .outside owner parent f item)
    (indexed : KeyName.isIndexed f.keyVariable = true) (count index : Nat)
    (bound : index + count = f.maxNestedDepth.getD levels)
    (fits : ∀ m < index, (f.levelIn owner parent item m).depth < Path.maxDepth)
    (noted : e ∈ (unrollLevels table f.keyVariable item (f.step (f.typeIn owner)) count index
      (f.levelIn owner parent item index)).notes) : Reached table levels schema base e := by
  induction count generalizing index with
  | zero => cases noted
  | succ count ih =>
    have inside : index < f.maxNestedDepth.getD levels := by omega
    rw [unrollLevels_succ] at noted
    rcases mem_note_ite noted with rfl | ⟨room, noted⟩ | ⟨-, noted⟩
    · exact .level collected indexed inside fits
    · rcases Traced.mem_notes_bind_iff.1 noted with below | ⟨_, _, later⟩
      · obtain ⟨model, rfl, below⟩ := mem_visitObject below
        obtain ⟨keyType, type⟩ := collected.type
        refine forall_of_visitFields (Scope.flat_keeps_reached table) model _ ⟨?_, ?_⟩ below
        · exact .level collected.visited collected.declared type indexed inside
        · rw [Path.depth_item]
          exact room
      · refine ih (index + 1) (by omega) (fun m earlier => ?_) later
        rcases Nat.lt_succ_iff_lt_or_eq.1 earlier with earlier | rfl
        · exact fits m earlier
        · exact room
    · cases noted

/-- A walk reaches what it notes. -/
theorem reached_of_noted (start : base.depth ≤ Path.maxDepth)
    (noted : e ∈ (ofSchema table levels schema base).notes) : Reached table levels schema base e := by
  have keeps : (Scope.unrolling table levels).Keeps
      (fun owner parent => Visited levels schema base .outside owner parent ∧ parent.depth ≤ Path.maxDepth)
      (Reached table levels schema base) := by
    refine Scope.keeps_reached fun collected indexed noted => ?_
    rw [unrolling_unroll] at noted
    exact reached_of_unrollLevels collected indexed _ 0 (Nat.zero_add _) nofun noted
  exact forall_of_visitFields keeps schema base ⟨.schema, start⟩ noted

/-- The first level that does not fit is noted too, as every one before it. -/
theorem noted_of_unrollLevels (count index : Nat)
    (success : (unrollLevels table f.keyVariable item (f.step (f.typeIn owner)) count index
      (f.levelIn owner parent item index)).result = .ok ()) {n : Nat} (low : index ≤ n) (high : n < index + count)
    (fits : ∀ m < n, (f.levelIn owner parent item m).depth < Path.maxDepth) :
    f.spine table owner parent item n ∈ (unrollLevels table f.keyVariable item (f.step (f.typeIn owner)) count index
      (f.levelIn owner parent item index)).notes := by
  induction count generalizing index with
  | zero => omega
  | succ count ih =>
    rw [unrollLevels_succ] at success ⊢
    rcases Nat.eq_or_lt_of_le low with rfl | low
    · exact List.mem_cons_self
    · rw [if_pos (fits index low)] at success ⊢
      obtain ⟨-, _, _, onward⟩ := within_bind success
      obtain ⟨_, walked⟩ := onward.1
      obtain ⟨-, _, _, later⟩ := within_bind walked
      obtain ⟨_, walked⟩ := later.1
      exact (later.trans onward).2.subset (ih (index + 1) walked low (by omega))

theorem noted_of_level {ds : List FieldDescriptor} (success : (ofSchema table levels schema base).result = .ok ds)
    (collected : Collected levels schema base .outside owner parent f item)
    (indexed : KeyName.isIndexed f.keyVariable = true) {n : Nat} (bound : n < f.maxNestedDepth.getD levels)
    (fits : ∀ m < n, (f.levelIn owner parent item m).depth < Path.maxDepth) :
    f.spine table owner parent item n ∈ (ofSchema table levels schema base).notes := by
  obtain ⟨keyType, type⟩ := collected.type
  have within := within_of_visited success collected.visited (Nat.le_of_lt collected.room)
  have below := (within.field collected.declared).2.2 collected.room
  rw [visitBelow_indexed type indexed, scopeOf, unrolling_unroll] at below
  obtain ⟨_, walked⟩ := below.1
  exact below.2.subset (noted_of_unrollLevels _ 0 walked (Nat.zero_le n) (by omega) fits)

end Walk

/-! ## What is skipped -/

namespace Draft

variable {draft final : Draft} {ds : List FieldDescriptor}

/-- What is too deep is skipped, if the depth is not strict. -/
theorem mem_skipped_of_deep (success : (draft.enterAll false ds).result = .ok final) {d : FieldDescriptor}
    (member : d ∈ ds) (deep : Path.maxDepth < d.path.depth) : ⟨d.pathText, d.path.depth⟩ ∈ final.skipped := by
  rw [skipped_enterAll success]
  refine List.mem_append_right _ (List.mem_map.2 ⟨d, ?_, rfl⟩)
  exact List.mem_filter.2 ⟨member, decide_eq_true deep⟩

end Draft

/-! ## Which levels are registered -/

namespace Compiler

variable {c : Compiler} {table : String} {schema : ObjectSchema} {base : Path} {compiled : CompiledSchema}
  {owner : ObjectSchema} {parent : Path} {f : FieldDecl} {item : FieldType}

/-- Two steps for each level are what a store accepts below the collection. -/
theorem depth_spine_le_iff (table : String) (item : FieldType) (room : (f.pathIn owner parent).depth ≤ Path.maxDepth)
    (i : Nat) :
    (f.spine table owner parent item i).path.depth ≤ Path.maxDepth ↔ i < (33 - (f.pathIn owner parent).depth) / 2 := by
  rw [Field.depth_spine]
  simp only [Path.maxDepth] at *
  omega

section Collected

variable (success : (c.compileAt table schema base).result = .ok compiled)
  (collected : Collected c.maxNestedDepth schema base .outside owner parent f item)
  (indexed : KeyName.isIndexed f.keyVariable = true)
include success collected indexed

/-- What a walk reaches under the text of a level is that level, and all before it fit. -/
theorem eq_spine_of_reached (regular : ∀ model, item = .object model → model = owner) {d : FieldDescriptor}
    (reached : Reached table c.maxNestedDepth schema base d) {i : Nat}
    (same : d.pathText = (f.spine table owner parent item i).pathText) :
    d = f.spine table owner parent item i ∧ i < f.maxNestedDepth.getD c.maxNestedDepth ∧
      ∀ m < i, (f.levelIn owner parent item m).depth < Path.maxDepth := by
  have chars : d.path.chars = (f.spine table owner parent item i).path.chars := congrArg String.toList same
  cases reached with
  | field visited declared room =>
    have checked := Field.isChecked_of_visited success visited room declared
    have last := (congrArg List.getLast? chars).trans (Path.getLast?_chars_item _ _ _)
    exact absurd last (Field.getLast?_chars_pathIn checked)
  | item plainOne plain => exact absurd chars (collected.ne_level_of_plain success indexed regular plainOne plain)
  | level other marked bound fits =>
    obtain ⟨rfl, rfl, rfl, rfl, rfl⟩ := other.eq_of_levels success marked collected indexed chars
    exact ⟨rfl, bound, fits⟩

/-- The levels that are asked for are registered as far as they fit, and no other place has the text of one. -/
theorem get?_spine (regular : ∀ model, item = .object model → model = owner) (i : Nat) :
    compiled.registry.get? (f.spine table owner parent item i).pathText =
      if i < min (f.maxNestedDepth.getD c.maxNestedDepth) ((33 - (f.pathIn owner parent).depth) / 2)
      then some (f.spine table owner parent item i) else none := by
  have fits := depth_spine_le_iff table item (collected.fits table) i
  split
  · next inside =>
    obtain ⟨asked, shallow⟩ := Nat.lt_min.1 inside
    obtain ⟨keyType, type⟩ := collected.type
    have place : IsPlace table c.maxNestedDepth schema base (f.spine table owner parent item i) :=
      .level collected.visited collected.declared type indexed asked
    exact (get?_registry_iff_isPlace rfl success _ _).2 ⟨place, rfl, fits.2 shallow⟩
  · next outside =>
    refine Option.eq_none_iff_forall_ne_some.2 fun d found => outside ?_
    obtain ⟨place, text, room⟩ := (get?_registry_iff_isPlace rfl success _ d).1 found
    obtain ⟨_, -, walked, -⟩ := compileAt_ok success
    have start : base.depth ≤ Path.maxDepth := Nat.le_trans collected.visited.depth_le (Nat.le_of_lt collected.room)
    have reached := Walk.reached_of_noted start (Walk.noted_of_isPlace walked place room)
    obtain ⟨rfl, asked, -⟩ := eq_spine_of_reached success collected indexed regular reached text.symm
    exact Nat.lt_min.2 ⟨asked, fits.1 room⟩

/-- Of the levels the first one that does not fit is skipped, if it is asked for. -/
theorem spine_skipped_iff (lenient : c.strictDepth = false) (regular : ∀ model, item = .object model → model = owner)
    (i : Nat) :
    ⟨(f.spine table owner parent item i).pathText, (f.spine table owner parent item i).path.depth⟩ ∈ compiled.skipped ↔
      (33 - (f.pathIn owner parent).depth) / 2 < f.maxNestedDepth.getD c.maxNestedDepth ∧
        i = (33 - (f.pathIn owner parent).depth) / 2 := by
  have room : (f.pathIn owner parent).depth ≤ Path.maxDepth := collected.fits table
  have fits := depth_spine_le_iff table item room i
  have levels (m : Nat) := f.depth_levelIn owner parent item m
  have collection := f.depth_pathIn owner parent
  have start : base.depth ≤ Path.maxDepth := Nat.le_trans collected.visited.depth_le (Nat.le_of_lt collected.room)
  obtain ⟨draft, entered, walked, shape⟩ := compileAt_ok success
  rw [lenient] at entered
  rw [shape]
  constructor
  · intro member
    rcases Draft.mem_skipped_enterAll entered member with before | ⟨d, noted, deep, same⟩
    · cases before
    · obtain ⟨text, depth⟩ := SkippedPath.mk.inj same
      obtain ⟨rfl, asked, shallow⟩ :=
        eq_spine_of_reached success collected indexed regular (Walk.reached_of_noted start noted) text.symm
      have last : i = (33 - (f.pathIn owner parent).depth) / 2 := by
        have before : i ≤ (33 - (f.pathIn owner parent).depth) / 2 := by
          cases i with
          | zero => exact Nat.zero_le _
          | succ m =>
            have above := shallow m (Nat.lt_succ_self m)
            rw [levels] at above
            simp only [Path.maxDepth] at above
            omega
        have beyond : ¬ i < (33 - (f.pathIn owner parent).depth) / 2 := fun inside =>
          absurd (fits.2 inside) (Nat.not_le.2 deep)
        omega
      exact ⟨last ▸ asked, last⟩
  · rintro ⟨asked, rfl⟩
    refine Draft.mem_skipped_of_deep entered (Walk.noted_of_level walked collected indexed asked fun m before => ?_) ?_
    · rw [levels]
      simp only [Path.maxDepth]
      omega
    · exact Nat.not_le.1 fun shallow => absurd (fits.1 shallow) (Nat.lt_irrefl _)

/-- Every item that is registered at or below a level is a level of the same collection, or the item of a plain one. -/
theorem item_below_spine {d : FieldDescriptor} {text : String} (registered : compiled.registry.get? text = some d)
    (isItem : d.isCollectionItem = true) {i : Nat}
    (below : (f.spine table owner parent item i).path.steps <+: d.path.steps) :
    (∃ j, i ≤ j ∧ d = f.spine table owner parent item j) ∨
      ∃ collection keyName itemType, compiled.registry.get? collection.pathText = some collection ∧
        collection.keyName = some keyName ∧ KeyName.isIndexed keyName = false ∧
        collection.itemType = some itemType ∧ d = .item table keyName itemType collection.path := by
  obtain ⟨place, -, room⟩ := (get?_registry_iff_isPlace rfl success _ d).1 registered
  cases place with
  | field =>
    rw [Field.isCollectionItem_place] at isItem
    cases isItem
  | @item region holder site g keyType otherItem visited declared type plain =>
    refine .inr ⟨g.place table holder site, g.keyVariable, otherItem, ?_, (Walk.place_dict table site type).1, plain,
      (Walk.place_dict table site type).2, rfl⟩
    refine (get?_registry_iff_isPlace rfl success _ _).2 ⟨.field visited declared, rfl, ?_⟩
    have depth : ((g.pathIn holder site).item g.keyVariable otherItem).depth ≤ Path.maxDepth := room
    rw [Path.depth_item] at depth
    exact Nat.le_of_succ_le depth
  | @level holder site g keyType otherItem j visited declared type marked bound =>
    have depth : ((g.levelIn holder site otherItem j).item (KeyName.level g.keyVariable j) otherItem).depth ≤
      Path.maxDepth := room
    rw [Path.depth_item, Field.depth_levelIn] at depth
    have other : Collected c.maxNestedDepth schema base .outside holder site g otherItem :=
      ⟨visited, declared, ⟨keyType, type⟩, by omega⟩
    obtain ⟨rfl, rfl, rfl, rfl, later⟩ := collected.eq_of_prefix success indexed other marked below
    exact .inl ⟨j, later, rfl⟩

end Collected

/-- In a lenient compilation that ends well, an indexed collection of self references, or of values that are no
objects, that is met outside of every unrolled one, has the items of its levels one below the other, and registered
are exactly those that are asked for and fit. Skipped is at most one of them, the first that does not fit, if it is
asked for. Below a level no other indexed collection has items. -/
theorem levels_registered_as_they_fit (c : Compiler) (lenient : c.strictDepth = false) (table : String)
    (schema : ObjectSchema) (base : Path) (compiled : CompiledSchema)
    (success : (c.compileAt table schema base).result = .ok compiled) (owner : ObjectSchema) (parent : Path)
    (visited : Visited c.maxNestedDepth schema base .outside owner parent) (f : FieldDecl)
    (declared : f ∈ owner.fields) (room : (f.pathIn owner parent).depth ≤ Path.maxDepth) (keyType : KeyType)
    (valueType item : FieldType) (type : f.type = .dict keyType valueType) (value : ∀ model, valueType ≠ .object model)
    (resolved : f.typeIn owner = .dict keyType item) (indexed : KeyName.isIndexed f.keyVariable = true) :
    let n := (f.pathIn owner parent).depth
    let levels := f.maxNestedDepth.getD c.maxNestedDepth
    let bound := (33 - n) / 2
    let spine := f.spine table owner parent item
    (∀ i, (spine i).path.depth = n + 1 + 2 * i ∧ (spine i).name = KeyName.level f.keyVariable i ∧
      (spine i).type = item) ∧
    ((spine 0).path = (f.pathIn owner parent).item (spine 0).name item ∧
      ∀ i, (spine (i + 1)).path = ((spine i).path.child (f.step (f.typeIn owner))).item (spine (i + 1)).name item) ∧
    (∀ i, compiled.registry.get? (spine i).pathText = if i < min levels bound then some (spine i) else none) ∧
    (∀ i, ⟨(spine i).pathText, (spine i).path.depth⟩ ∈ compiled.skipped ↔ bound < levels ∧ i = bound) ∧
    ∀ i text d, compiled.registry.get? text = some d → d.isCollectionItem = true →
      (spine i).path.steps <+: d.path.steps →
      (∃ j, i ≤ j ∧ d = spine j) ∨
        ∃ collection keyName itemType, compiled.registry.get? collection.pathText = some collection ∧
          collection.keyName = some keyName ∧ KeyName.isIndexed keyName = false ∧
          collection.itemType = some itemType ∧ d = .item table keyName itemType collection.path := by
  intro n levels bound spine
  have collected : Collected c.maxNestedDepth schema base .outside owner parent f item := by
    refine ⟨visited, declared, ⟨keyType, resolved⟩, ?_⟩
    rw [Field.depth_pathIn] at room
    exact room
  have regular : ∀ model, item = .object model → model = owner := by
    rintro model rfl
    rcases FieldType.within_eq_dict resolved with same | ⟨-, same⟩
    · exact absurd (FieldType.dict.inj (type.symm.trans same)).2 (value model)
    · exact FieldType.object.inj same
  refine ⟨fun i => ⟨f.depth_spine table owner parent item i, rfl, rfl⟩, ⟨rfl, fun i => rfl⟩, fun i => ?_, fun i => ?_,
    fun i text d registered isItem below => ?_⟩
  · exact get?_spine success collected indexed regular i
  · exact spine_skipped_iff success collected indexed lenient regular i
  · exact item_below_spine success collected indexed registered isItem below

/-- Two levels of a chain below a base that leaves room for one: the first is registered, the second is skipped. -/
theorem chainSchema_levels_registered :
    ∃ compiled, (Compiler.compileAt ⟨2, false⟩ "nodes" chainSchema roomyBase).result = .ok compiled ∧
      let spine := chainSchema.fields[0].spine "nodes" chainSchema roomyBase (.object chainSchema)
      compiled.registry.get? (spine 0).pathText = some (spine 0) ∧
      compiled.registry.get? (spine 1).pathText = none ∧
      ⟨(spine 1).pathText, 34⟩ ∈ compiled.skipped := by
  have ends : (Compiler.compileAt ⟨2, false⟩ "nodes" chainSchema roomyBase).result.isOk = true := by
    decide
  obtain ⟨compiled, success⟩ := exists_eq_ok_of_isOk ends
  obtain ⟨-, -, registered, skipped, -⟩ := levels_registered_as_they_fit ⟨2, false⟩ rfl "nodes" chainSchema roomyBase
    compiled success chainSchema roomyBase .schema chainSchema.fields[0] (List.getElem_mem _) (by decide) .string
    .selfRef (.object chainSchema) rfl nofun rfl (by decide)
  exact ⟨compiled, success, registered 0, registered 1, (skipped 1).2 (by decide)⟩

end Compiler

end DocSchema
