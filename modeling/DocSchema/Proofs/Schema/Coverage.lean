import DocSchema.Proofs.Schema.Step

/-!
# A walk covers the places of its schema

What a walk notes, compared with the rules for places. A walk notes declared places only (`isPlace_of_noted`),
and a walk that ends well notes every declared place whose path a store accepts (`noted_of_isPlace`).
-/

namespace DocSchema

namespace Walk

variable {s : Scope}

/-! ## What holds of all that a walk notes -/

/-- A walk of a model in this scope hands `Met` on to every model that it goes on to, and `P` holds of every place
that it notes. -/
structure Scope.Keeps (s : Scope) (Met : ObjectSchema → Path → Prop) (P : FieldDescriptor → Prop) : Prop where
  field {owner : ObjectSchema} {parent : Path} {f : FieldDecl} (met : Met owner parent)
    (declared : f ∈ owner.fields) : P (f.place s.table owner parent)
  object {owner model : ObjectSchema} {parent : Path} {f : FieldDecl} (met : Met owner parent)
    (declared : f ∈ owner.fields) (room : parent.depth < Path.maxDepth) (type : f.typeIn owner = .object model) :
    Met model (f.pathIn owner parent)
  item {owner : ObjectSchema} {parent : Path} {f : FieldDecl} {keyType : KeyType} {item : FieldType}
    (met : Met owner parent) (declared : f ∈ owner.fields) (room : parent.depth < Path.maxDepth)
    (type : f.typeIn owner = .dict keyType item) (plain : KeyName.isIndexed f.keyVariable = false) :
    P (.item s.table f.keyVariable item (f.pathIn owner parent))
  itemModel {owner model : ObjectSchema} {parent : Path} {f : FieldDecl} {keyType : KeyType}
    (met : Met owner parent) (declared : f ∈ owner.fields) (room : parent.depth + 1 < Path.maxDepth)
    (type : f.typeIn owner = .dict keyType (.object model)) (plain : KeyName.isIndexed f.keyVariable = false) :
    Met model ((f.pathIn owner parent).item f.keyVariable (.object model))
  levels {owner : ObjectSchema} {parent : Path} {f : FieldDecl} {keyType : KeyType} {item : FieldType}
    {e : FieldDescriptor} (met : Met owner parent) (declared : f ∈ owner.fields)
    (room : parent.depth < Path.maxDepth) (type : f.typeIn owner = .dict keyType item)
    (indexed : KeyName.isIndexed f.keyVariable = true)
    (noted : e ∈ (s.unroll f f.keyVariable item (f.pathIn owner parent)).notes) : P e

/-- A walk goes on to smaller models, apart from what the scope adds. -/
theorem forall_of_visitFields {Met : ObjectSchema → Path → Prop} {P : FieldDescriptor → Prop}
    (keeps : s.Keeps Met P) (model : ObjectSchema) (parent : Path) (met : Met model parent)
    {e : FieldDescriptor} (noted : e ∈ (visitFields s model parent model.fields).notes) : P e := by
  obtain ⟨f, declared, described, rfl | ⟨room, below⟩⟩ := mem_visitFields noted
  · exact keeps.field met declared
  have smaller := Model.sizeOf_type_lt declared
  cases type : f.typeIn model with
  | object inner =>
    rw [visitBelow_object type] at below
    obtain ⟨_, ⟨⟩, below⟩ := mem_visitObject below
    have smaller : sizeOf inner < sizeOf model := by
      rw [FieldType.within_eq_object type, FieldType.object.sizeOf_spec] at smaller
      omega
    exact forall_of_visitFields keeps inner _ (keeps.object met declared room type) below
  | dict keyType item =>
    cases indexed : KeyName.isIndexed f.keyVariable with
    | true =>
      rw [visitBelow_indexed type indexed] at below
      exact keeps.levels met declared room type indexed below
    | false =>
      obtain ⟨dict, walked⟩ := visitBelow_item described type indexed
      rw [walked, visitItem_eq, Field.depth_pathIn] at below
      rcases mem_note_ite below with rfl | ⟨deeper, below⟩ | ⟨-, below⟩
      · exact keeps.item met declared room type indexed
      · obtain ⟨inner, rfl, below⟩ := mem_visitObject below
        have smaller : sizeOf inner < sizeOf model := by
          rw [dict, FieldType.dict.sizeOf_spec, FieldType.object.sizeOf_spec] at smaller
          omega
        exact forall_of_visitFields keeps inner _ (keeps.itemModel met declared deeper type indexed) below
      · cases below
  | _ =>
    rw [visitBelow_other model (by simp [type]) (by simp [type])] at below
    cases below
termination_by sizeOf model
decreasing_by
  all_goals exact smaller

/-! ## What a walk notes is declared -/

section Soundness

variable {levels : Nat} {schema : ObjectSchema} {base : Path} {region : Region}

/-- Places are declared if those are that the scope adds below the indexed collections of a region. -/
theorem Scope.keeps_isPlace
    (added : ∀ {owner parent f keyType item e}, Visited levels schema base region owner parent →
      f ∈ owner.fields → f.typeIn owner = .dict keyType item → KeyName.isIndexed f.keyVariable = true →
      e ∈ (s.unroll f f.keyVariable item (f.pathIn owner parent)).notes → IsPlace s.table levels schema base e) :
    s.Keeps (Visited levels schema base region) (IsPlace s.table levels schema base) where
  field visited declared := .field visited declared
  object visited declared _ type := .object visited declared type
  item visited declared _ type plain := .item visited declared type plain
  itemModel visited declared _ type plain := .item visited declared type plain
  levels visited declared _ type indexed noted := added visited declared type indexed noted

/-- Within a level nothing is added. -/
theorem Scope.flat_keeps_isPlace (table : String) :
    (Scope.flat table).Keeps (Visited levels schema base .unrolled) (IsPlace table levels schema base) :=
  Scope.keeps_isPlace fun _ _ _ _ noted => nomatch noted

/-- What outside of all levels an indexed collection adds: the items of its levels, from one level on. -/
theorem isPlace_of_unrollLevels {table : String} {owner : ObjectSchema} {parent : Path} {f : FieldDecl}
    {keyType : KeyType} {item : FieldType} (visited : Visited levels schema base .outside owner parent)
    (declared : f ∈ owner.fields) (type : f.typeIn owner = .dict keyType item)
    (indexed : KeyName.isIndexed f.keyVariable = true) (count index : Nat)
    (bound : index + count = f.maxNestedDepth.getD levels) {e : FieldDescriptor}
    (noted : e ∈ (unrollLevels table f.keyVariable item (f.step (f.typeIn owner)) count index
      (f.levelIn owner parent item index)).notes) :
    IsPlace table levels schema base e := by
  induction count generalizing index with
  | zero => cases noted
  | succ count ih =>
    have inside : index < f.maxNestedDepth.getD levels := by omega
    rw [unrollLevels_succ] at noted
    rcases mem_note_ite noted with rfl | ⟨-, noted⟩ | ⟨-, noted⟩
    · exact .level visited declared type indexed inside
    · rcases Traced.mem_notes_bind_iff.1 noted with below | ⟨_, _, later⟩
      · obtain ⟨model, rfl, below⟩ := mem_visitObject below
        exact forall_of_visitFields (Scope.flat_keeps_isPlace table) model _
          (.level visited declared type indexed inside) below
      · exact ih (index + 1) (by omega) later
    · cases noted

/-- The scope of a whole schema adds the levels of an indexed collection. -/
theorem unrolling_unroll (table : String) (levels : Nat) (owner : ObjectSchema) (parent : Path)
    (f : FieldDecl) (item : FieldType) :
    (Scope.unrolling table levels).unroll f f.keyVariable item (f.pathIn owner parent) =
      unrollLevels table f.keyVariable item (f.step (f.typeIn owner)) (f.maxNestedDepth.getD levels) 0
        (f.levelIn owner parent item 0) := by
  have last : (f.pathIn owner parent).last? = some (f.step (f.typeIn owner)) := by
    simp [Field.pathIn]
  simp only [Scope.unrolling, last]
  rfl

theorem Scope.unrolling_keeps_isPlace (table : String) :
    (Scope.unrolling table levels).Keeps (Visited levels schema base .outside)
      (IsPlace table levels schema base) := by
  refine Scope.keeps_isPlace fun visited declared type indexed noted => ?_
  rw [unrolling_unroll] at noted
  exact isPlace_of_unrollLevels visited declared type indexed _ 0 (Nat.zero_add _) noted

/-- A walk notes declared places only. -/
theorem isPlace_of_noted {table : String} {e : FieldDescriptor}
    (noted : e ∈ (ofSchema table levels schema base).notes) : IsPlace table levels schema base e :=
  forall_of_visitFields (Scope.unrolling_keeps_isPlace table) schema base .schema noted

end Soundness

/-! ## What is declared is noted -/

section Completeness

variable {table : String} {levels : Nat} {schema : ObjectSchema} {base : Path}

/-- The scope in which the models of a region are walked. -/
def scopeOf (table : String) (levels : Nat) : Region → Scope
  | .outside => .unrolling table levels
  | .unrolled => .flat table

theorem depth_levelIn_mono {owner : ObjectSchema} {parent : Path} {f : FieldDecl} {item : FieldType}
    {m n : Nat} (le : m ≤ n) :
    (f.levelIn owner parent item m).depth ≤ (f.levelIn owner parent item n).depth := by
  induction le with
  | refl => exact Nat.le_refl _
  | step _ ih =>
    refine Nat.le_trans ih ?_
    simp only [Field.levelIn, Path.level, Path.depth_child, Path.depth_item]
    omega

theorem depth_lt_levelIn (owner : ObjectSchema) (parent : Path) (f : FieldDecl) (item : FieldType) (n : Nat) :
    parent.depth < (f.levelIn owner parent item n).depth := by
  have first : (f.levelIn owner parent item 0).depth = parent.depth + 1 := f.depth_pathIn owner parent
  have mono : (f.levelIn owner parent item 0).depth ≤ (f.levelIn owner parent item n).depth :=
    depth_levelIn_mono (Nat.zero_le n)
  omega

/-- Each level whose item a store accepts is noted, and its item is visited. -/
theorem unrollLevels_ok {owner : ObjectSchema} {parent : Path} {f : FieldDecl} {item : FieldType}
    (count index : Nat)
    (success : (unrollLevels table f.keyVariable item (f.step (f.typeIn owner)) count index
      (f.levelIn owner parent item index)).result = .ok ()) {n : Nat} (low : index ≤ n)
    (high : n < index + count) (room : (f.levelIn owner parent item n).depth < Path.maxDepth) :
    .item table (KeyName.level f.keyVariable n) item (f.levelIn owner parent item n) ∈
        (unrollLevels table f.keyVariable item (f.step (f.typeIn owner)) count index
          (f.levelIn owner parent item index)).notes ∧
      (visitObject (.flat table) ((f.levelIn owner parent item n).item (KeyName.level f.keyVariable n) item)
        item).Within (unrollLevels table f.keyVariable item (f.step (f.typeIn owner)) count index
          (f.levelIn owner parent item index)) := by
  induction count generalizing index with
  | zero => omega
  | succ count ih =>
    have roomHere : (f.levelIn owner parent item index).depth < Path.maxDepth :=
      Nat.lt_of_le_of_lt (depth_levelIn_mono low) room
    rw [unrollLevels_succ, if_pos roomHere] at success ⊢
    obtain ⟨noted, _, _, onward⟩ := within_bind success
    obtain ⟨_, walked⟩ := onward.1
    obtain ⟨visited, _, _, later⟩ := within_bind walked
    obtain ⟨_, walked⟩ := later.1
    rcases Nat.eq_or_lt_of_le low with rfl | low
    · exact ⟨noted.2.subset List.mem_cons_self, visited.trans onward⟩
    · obtain ⟨notedLater, visitedLater⟩ := ih (index + 1) walked low (by omega)
      have later := later.trans onward
      exact ⟨later.2.subset notedLater, visitedLater.trans later⟩

/-- The fields of a model that a larger walk visits are noted there, and walked below if there is room. -/
theorem Within.field {β : Type} {whole : Walk β} {owner : ObjectSchema} {parent : Path} {f : FieldDecl}
    (walked : (visitFields s owner parent owner.fields).Within whole) (declared : f ∈ owner.fields) :
    f.describe s.table owner parent = .ok (f.place s.table owner parent) ∧
      f.place s.table owner parent ∈ whole.notes ∧
      (parent.depth < Path.maxDepth →
        (visitBelow s f (f.place s.table owner parent) f.type).Within whole) := by
  obtain ⟨_, success⟩ := walked.1
  obtain ⟨described, noted, below⟩ := visitFields_ok success declared
  exact ⟨described, walked.2.subset noted, fun room => (below room).trans walked⟩

/-- The item of a plain collection is noted, and visited if there is room. -/
theorem Within.item {β : Type} {whole : Walk β} {owner : ObjectSchema} {parent : Path} {f : FieldDecl}
    {keyType : KeyType} {item : FieldType}
    (walked : (visitFields s owner parent owner.fields).Within whole) (declared : f ∈ owner.fields)
    (type : f.typeIn owner = .dict keyType item) (plain : KeyName.isIndexed f.keyVariable = false)
    (room : parent.depth < Path.maxDepth) :
    .item s.table f.keyVariable item (f.pathIn owner parent) ∈ whole.notes ∧
      (parent.depth + 1 < Path.maxDepth →
        (visitObject s ((f.pathIn owner parent).item f.keyVariable item) item).Within whole) := by
  obtain ⟨described, -, below⟩ := walked.field declared
  have walked := below room
  rw [(visitBelow_item described type plain).2, visitItem_eq, Field.depth_pathIn] at walked
  obtain ⟨_, success⟩ := walked.1
  obtain ⟨noted, _, _, onward⟩ := within_bind success
  refine ⟨walked.2.subset (noted.2.subset List.mem_cons_self), fun deeper => ?_⟩
  rw [if_pos deeper] at onward walked
  exact onward.trans walked

/-- The items of the levels of an indexed collection are noted, and visited, as far as there is room. -/
theorem Within.level {β : Type} {whole : Walk β} {owner : ObjectSchema} {parent : Path} {f : FieldDecl}
    {keyType : KeyType} {item : FieldType} {n : Nat}
    (walked : (visitFields (.unrolling table levels) owner parent owner.fields).Within whole)
    (declared : f ∈ owner.fields) (type : f.typeIn owner = .dict keyType item)
    (indexed : KeyName.isIndexed f.keyVariable = true) (bound : n < f.maxNestedDepth.getD levels)
    (room : (f.levelIn owner parent item n).depth < Path.maxDepth) :
    .item table (KeyName.level f.keyVariable n) item (f.levelIn owner parent item n) ∈ whole.notes ∧
      (visitObject (.flat table) ((f.levelIn owner parent item n).item (KeyName.level f.keyVariable n) item)
        item).Within whole := by
  have outer := depth_lt_levelIn owner parent f item n
  have walked := (walked.field declared).2.2 (by omega)
  rw [visitBelow_indexed type indexed, unrolling_unroll] at walked
  obtain ⟨_, success⟩ := walked.1
  obtain ⟨noted, visited⟩ := unrollLevels_ok _ 0 success (Nat.zero_le n) (by omega) room
  exact ⟨walked.2.subset noted, visited.trans walked⟩

/-- An object that a larger walk visits has its fields walked there. -/
theorem Within.object {β : Type} {whole : Walk β} {path : Path} {model : ObjectSchema}
    (visited : (visitObject s path (.object model)).Within whole) :
    (visitFields s model path model.fields).Within whole := by
  obtain ⟨_, success⟩ := visited.1
  exact (within_bind success).1.trans visited

/-- A model that is met at a path a store accepts is walked. -/
theorem within_of_visited {ds : List FieldDescriptor}
    (success : (ofSchema table levels schema base).result = .ok ds) {region : Region} {owner : ObjectSchema}
    {parent : Path} (visited : Visited levels schema base region owner parent)
    (room : parent.depth ≤ Path.maxDepth) :
    (visitFields (scopeOf table levels region) owner parent owner.fields).Within
      (ofSchema table levels schema base) := by
  induction visited with
  | schema => exact ⟨⟨ds, success⟩, List.Sublist.refl _⟩
  | @object region owner model parent f visited declared type ih =>
    rw [Field.depth_pathIn] at room
    have below := ((ih (by omega)).field declared).2.2 room
    rw [visitBelow_object type] at below
    exact below.object
  | @item region owner model parent f keyType visited declared type plain ih =>
    rw [Path.depth_item, Field.depth_pathIn] at room
    exact (((ih (by omega)).item declared type plain (by omega)).2 room).object
  | @level owner model parent f keyType n visited declared type indexed bound ih =>
    rw [Path.depth_item] at room
    have outer := depth_lt_levelIn owner parent f (.object model) n
    exact ((ih (by omega)).level declared type indexed bound room).2.object

/-- A walk that ends well notes every declared place whose path a store accepts. -/
theorem noted_of_isPlace {ds : List FieldDescriptor}
    (success : (ofSchema table levels schema base).result = .ok ds) {d : FieldDescriptor}
    (place : IsPlace table levels schema base d) (room : d.path.depth ≤ Path.maxDepth) :
    d ∈ (ofSchema table levels schema base).notes := by
  cases place with
  | @field region owner parent f visited declared =>
    have inside : (f.pathIn owner parent).depth ≤ Path.maxDepth := room
    rw [Field.depth_pathIn] at inside
    have walked := within_of_visited success visited (by omega)
    have noted := (walked.field declared).2.1
    cases region <;> exact noted
  | @item region owner parent f keyType item visited declared type plain =>
    have inside : ((f.pathIn owner parent).item f.keyVariable item).depth ≤ Path.maxDepth := room
    rw [Path.depth_item, Field.depth_pathIn] at inside
    have walked := within_of_visited success visited (by omega)
    have noted := (walked.item declared type plain (by omega)).1
    cases region <;> exact noted
  | @level owner parent f keyType item n visited declared type indexed bound =>
    have inside : ((f.levelIn owner parent item n).item (KeyName.level f.keyVariable n) item).depth ≤
        Path.maxDepth := room
    rw [Path.depth_item] at inside
    have outer := depth_lt_levelIn owner parent f item n
    exact ((within_of_visited success visited (by omega)).level declared type indexed bound inside).1

end Completeness

end Walk

end DocSchema
