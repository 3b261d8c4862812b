import DocSchema.Proofs.Schema.Declarations
import DocSchema.Proofs.Schema.Strictness
import DocSchema.Proofs.Schema.TopLevel
import Mathlib.Data.List.Chain

/-!
# Entries of a registry

What can be said of every entry of a registry, whatever the schema and the settings: how its path is made up below
the base, how deep it is, and how the parts of its descriptor go together. The depth is checked only when a place
is entered; a walk goes a little deeper, and what it skips is at most two steps too deep.
-/

namespace DocSchema

/-! ## The make-up of paths -/

/-- Steps that lead down from an object: the first one leads to a member, an item comes directly behind the member
that holds it, and path texts can hold all names. -/
structure AreShaped (steps : List PathStep) : Prop where
  first : ∀ s ∈ steps.head?, s.isPlaceholder = false
  items : steps.IsChain fun r s => s.isPlaceholder = true → r.isPlaceholder = false
  named : ∀ s ∈ steps, IsSpeakable s.key.name

theorem AreShaped.concat {steps : List PathStep} {s : PathStep} (shaped : AreShaped steps)
    (named : IsSpeakable s.key.name)
    (held : s.isPlaceholder = true → ∃ r ∈ steps.getLast?, r.isPlaceholder = false) :
    AreShaped (steps ++ [s]) := by
  refine ⟨?_, ?_, List.forall_mem_append.2 ⟨shaped.named, List.forall_mem_singleton.2 named⟩⟩
  · cases steps with
    | nil =>
      intro t first
      cases first
      refine Bool.eq_false_iff.2 fun dynamic => ?_
      obtain ⟨r, last, -⟩ := held dynamic
      cases last
    | cons r rest => exact shaped.first
  · refine List.isChain_append.2 ⟨shaped.items, List.isChain_singleton _, fun r last t next dynamic => ?_⟩
    cases next
    obtain ⟨q, found, literal⟩ := held dynamic
    cases last.symm.trans found
    exact literal

namespace Path

/-- The path goes on below `base`, at an object. -/
def Extends (p base : Path) : Prop :=
  ∃ steps, p = base.extend steps ∧ AreShaped steps

namespace Extends

variable {p base : Path} {s : PathStep}

theorem refl (base : Path) : base.Extends base :=
  ⟨[], congrArg Path.mk (List.append_nil _).symm, ⟨nofun, List.IsChain.nil, nofun⟩⟩

theorem depth_le (above : p.Extends base) : base.depth ≤ p.depth := by
  obtain ⟨steps, rfl, -⟩ := above
  rw [depth_extend]
  omega

/-- A step to a member may follow anywhere. -/
theorem member (above : p.Extends base) (literal : s.isPlaceholder = false) (named : IsSpeakable s.key.name) :
    (p.child s).Extends base := by
  obtain ⟨steps, rfl, shaped⟩ := above
  refine ⟨steps ++ [s], congrArg Path.mk (List.append_assoc ..), shaped.concat named fun dynamic => ?_⟩
  rw [literal] at dynamic
  cases dynamic

/-- A step to an item may only follow a step to a member. -/
theorem item {r : PathStep} (above : p.Extends base) (literal : s.isPlaceholder = false)
    (named : IsSpeakable s.key.name) (keyed : IsSpeakable r.key.name) :
    ((p.child s).child r).Extends base := by
  obtain ⟨steps, rfl, shaped⟩ := above
  have collection : AreShaped (steps ++ [s]) := shaped.concat named fun dynamic => by simp [literal] at dynamic
  refine ⟨steps ++ [s] ++ [r], ?_, collection.concat keyed fun _ => ⟨s, by simp, literal⟩⟩
  simp [child, extend]

end Extends

end Path

/-! ## Paths of places -/

namespace Field

variable {table : String} {owner : ObjectSchema} {parent base : Path} {f : FieldDecl}

/-- The variable of a described collection has been checked. -/
theorem fault?_of_describe {d : FieldDescriptor} {keyType : KeyType} {item : FieldType}
    (success : f.describe table owner parent = .ok d) (type : f.typeIn owner = .dict keyType item) :
    KeyName.fault? f.keyVariable = none := by
  have dict : ∃ valueType, f.type = .dict keyType valueType := by
    rcases FieldType.within_eq_dict type with same | ⟨self, -⟩
    · exact ⟨item, same⟩
    · exact ⟨.selfRef, self⟩
  obtain ⟨valueType, dict⟩ := dict
  obtain ⟨rfl, -⟩ := describe_ok success
  obtain ⟨-, -, keyed, -⟩ := describe_ok_iff.1 success
  exact ((keyName?_dict dict).1 keyed).1

/-- What has been checked of a declaration. -/
structure IsChecked (owner : ObjectSchema) (f : FieldDecl) : Prop extends f.IsWellDeclared where
  keyed : ∀ keyType item, f.typeIn owner = .dict keyType item → KeyName.fault? f.keyVariable = none

theorem isChecked_of_describe {d : FieldDescriptor} (success : f.describe table owner parent = .ok d) :
    f.IsChecked owner :=
  ⟨isWellDeclared_of_describe success, fun _ _ type => fault?_of_describe success type⟩

namespace IsChecked

variable (checked : f.IsChecked owner)
include checked

theorem isSpeakable : IsSpeakable f.name :=
  ⟨checked.named, checked.unreserved⟩

theorem extends_pathIn (above : parent.Extends base) : (f.pathIn owner parent).Extends base :=
  above.member rfl checked.isSpeakable

/-- An item below the collection at one of its levels. -/
theorem extends_item_levelIn {keyType : KeyType} {item : FieldType}
    (type : f.typeIn owner = .dict keyType item) (above : parent.Extends base) (n : Nat) :
    ((f.levelIn owner parent item n).item (KeyName.level f.keyVariable n) item).Extends base := by
  have speakable (n : Nat) := KeyName.isSpeakable_level (checked.keyed _ _ type) n
  induction n with
  | zero => exact above.item rfl checked.isSpeakable (speakable 0)
  | succ n ih => exact ih.item rfl checked.isSpeakable (speakable (n + 1))

theorem extends_item {keyType : KeyType} {item : FieldType} (type : f.typeIn owner = .dict keyType item)
    (plain : KeyName.isIndexed f.keyVariable = false) (above : parent.Extends base) :
    ((f.pathIn owner parent).item f.keyVariable item).Extends base :=
  above.item rfl checked.isSpeakable (KeyName.isSpeakable_of_plain (checked.keyed _ _ type) plain)

end IsChecked

end Field

section Met

variable {c : Compiler} {table : String} {schema owner : ObjectSchema} {base parent : Path}
  {compiled : CompiledSchema} {region : Region}

/-- The fields of a model that is met have been checked. -/
theorem Field.isChecked_of_visited (success : (c.compileAt table schema base).result = .ok compiled)
    (visited : Visited c.maxNestedDepth schema base region owner parent) (room : parent.depth ≤ Path.maxDepth)
    {f : FieldDecl} (declared : f ∈ owner.fields) : f.IsChecked owner := by
  obtain ⟨draft, -, walked, -⟩ := Compiler.compileAt_ok success
  have described := ((Walk.within_of_visited walked visited room).field declared).1
  exact isChecked_of_describe described

/-- Every step from a model that is met to the next one keeps the make-up of paths. -/
theorem Visited.extends (success : (c.compileAt table schema base).result = .ok compiled)
    (visited : Visited c.maxNestedDepth schema base region owner parent) (room : parent.depth ≤ Path.maxDepth) :
    parent.Extends base := by
  induction visited with
  | schema => exact Path.Extends.refl base
  | @object _ owner _ parent f visited declared type ih =>
    rw [Field.depth_pathIn] at room
    have checked := Field.isChecked_of_visited success visited (by omega) declared
    exact checked.extends_pathIn (ih (by omega))
  | @item _ owner _ parent f _ visited declared type plain ih =>
    rw [Path.depth_item, Field.depth_pathIn] at room
    have checked := Field.isChecked_of_visited success visited (by omega) declared
    exact checked.extends_item type plain (ih (by omega))
  | @level owner model parent f _ n visited declared type indexed bound ih =>
    rw [Path.depth_item] at room
    have outer := Walk.depth_lt_levelIn owner parent f (.object model) n
    have checked := Field.isChecked_of_visited success visited (by omega) declared
    exact checked.extends_item_levelIn type (ih (by omega)) n

end Met

/-! ## How the parts of a descriptor go together -/

/-- What a registry promises of each of its descriptors. -/
structure FieldDescriptor.IsWellFormed (base : Path) (d : FieldDescriptor) : Prop where
  start : 1 ≤ d.path.depth
  room : d.path.depth ≤ Path.maxDepth
  strict : base.depth < d.path.depth
  below : d.path.Extends base
  keyed : d.keyName.isSome = d.itemType.isSome
  collection : d.itemType.isSome = true ↔
    d.isCollectionItem = false ∧ ∃ keyType valueType, d.type = .dict keyType valueType
  optional : d.isCollectionItem = true → d.required = false
  resolved : ¬ d.type.HoldsSelfRef
  itemResolved : ∀ itemType ∈ d.itemType, ¬ itemType.HoldsSelfRef
  stored : ∃ s, d.path.last? = some s ∧ s.type = d.type.storageType

namespace Field.IsChecked

variable {table : String} {owner : ObjectSchema} {parent base : Path} {f : FieldDecl}

/-- Read as the model that declares it, the one self reference that is allowed is gone. -/
theorem resolved (checked : f.IsChecked owner) : ¬ (f.typeIn owner).HoldsSelfRef := by
  intro held
  unfold typeIn FieldType.within at held
  split at held
  · cases held with
    | value inside => cases inside
  · next other =>
    obtain ⟨keyType, type, -⟩ := checked.indexed held
    exact other keyType type

theorem itemResolved (checked : f.IsChecked owner) {keyType : KeyType} {item : FieldType}
    (type : f.typeIn owner = .dict keyType item) : ¬ item.HoldsSelfRef :=
  fun held => checked.resolved (type ▸ .value held)

theorem isWellFormed_place (checked : f.IsChecked owner) (above : parent.Extends base)
    (room : (f.pathIn owner parent).depth ≤ Path.maxDepth) :
    (f.place table owner parent).IsWellFormed base := by
  have lower := above.depth_le
  have depth := f.depth_pathIn owner parent
  constructor
  case start => exact depth ▸ Nat.succ_pos _
  case room => exact room
  case strict => exact depth ▸ Nat.lt_succ_of_le lower
  case below => exact checked.extends_pathIn above
  case keyed => exact Option.isSome_map
  case collection =>
    rw [isCollectionItem_place]
    cases type : f.typeIn owner <;> simp [place, type, FieldType.itemType?]
  case optional =>
    rw [isCollectionItem_place]
    intro item
    cases item
  case resolved => exact checked.resolved
  case itemResolved =>
    intro item member
    cases type : f.typeIn owner with
    | dict keyType valueType =>
      rw [place, type] at member
      cases member
      exact checked.itemResolved type
    | _ =>
      rw [place, type] at member
      cases member
  case stored => exact ⟨_, Path.last?_child parent _, rfl⟩

end Field.IsChecked

theorem FieldDescriptor.isWellFormed_item {table keyName : String} {type : FieldType} {collection base : Path}
    (below : (collection.item keyName type).Extends base) (strict : base.depth ≤ collection.depth)
    (room : (collection.item keyName type).depth ≤ Path.maxDepth) (resolved : ¬ type.HoldsSelfRef) :
    (item table keyName type collection).IsWellFormed base := by
  have depth := collection.depth_item keyName type
  constructor
  case start => exact depth ▸ Nat.succ_pos _
  case room => exact room
  case strict => exact depth ▸ Nat.lt_succ_of_le strict
  case below => exact below
  case keyed => rfl
  case collection =>
    rw [isCollectionItem_item]
    constructor <;> nofun
  case optional => exact fun _ => rfl
  case resolved => exact resolved
  case itemResolved => nofun
  case stored => exact ⟨_, Path.last?_child collection _, rfl⟩

/-! ## How deep a walk goes -/

namespace Walk

/-- Two more steps than a store accepts. -/
def WithinReach (d : FieldDescriptor) : Prop :=
  d.path.depth ≤ Path.maxDepth + 2

theorem Scope.keeps_withinReach {s : Scope}
    (added : ∀ {f keyName item collection e}, collection.depth ≤ Path.maxDepth →
      e ∈ (s.unroll f keyName item collection).notes → WithinReach e) :
    s.Keeps (fun _ parent => parent.depth ≤ Path.maxDepth) WithinReach where
  field {owner parent f} met _ := by
    have depth := f.depth_pathIn owner parent
    change (f.pathIn owner parent).depth ≤ _
    omega
  object {owner _ parent f} _ _ room _ := (f.depth_pathIn owner parent).symm ▸ room
  item {owner parent f _ item} _ _ room _ _ := by
    have depth := (f.pathIn owner parent).depth_item f.keyVariable item
    rw [Field.depth_pathIn] at depth
    change ((f.pathIn owner parent).item f.keyVariable item).depth ≤ _
    omega
  itemModel {owner model parent f _} _ _ room _ _ := by
    rw [Path.depth_item, Field.depth_pathIn]
    exact room
  levels {owner parent f _ _ _} _ _ room _ _ noted := added ((f.depth_pathIn owner parent).symm ▸ room) noted

theorem Scope.flat_keeps_withinReach (table : String) :
    (Scope.flat table).Keeps (fun _ parent => parent.depth ≤ Path.maxDepth) WithinReach :=
  Scope.keeps_withinReach fun _ noted => nomatch noted

/-- A collection one step too deep is reached behind an item that is not; its own item is the last one noted. -/
theorem withinReach_of_unrollLevels {table keyName : String} {item : FieldType} {step : PathStep}
    {count index : Nat} {collection : Path} (room : collection.depth ≤ Path.maxDepth + 1) {e : FieldDescriptor}
    (noted : e ∈ (unrollLevels table keyName item step count index collection).notes) : WithinReach e := by
  induction count generalizing index collection with
  | zero => cases noted
  | succ count ih =>
    have depth := collection.depth_item (KeyName.level keyName index) item
    rw [unrollLevels_succ] at noted
    rcases mem_note_ite noted with rfl | ⟨inside, noted⟩ | ⟨-, noted⟩
    · change (collection.item (KeyName.level keyName index) item).depth ≤ _
      omega
    · rcases Traced.mem_notes_bind_iff.1 noted with below | ⟨_, _, later⟩
      · obtain ⟨model, rfl, below⟩ := mem_visitObject below
        exact forall_of_visitFields (Scope.flat_keeps_withinReach table) model _ (by omega) below
      · refine ih ?_ later
        rw [Path.depth_child]
        omega
    · cases noted

theorem Scope.unrolling_keeps_withinReach (table : String) (levels : Nat) :
    (Scope.unrolling table levels).Keeps (fun _ parent => parent.depth ≤ Path.maxDepth) WithinReach := by
  refine Scope.keeps_withinReach fun room noted => ?_
  unfold Scope.unrolling at noted
  dsimp only at noted
  split at noted
  · exact withinReach_of_unrollLevels (Nat.le_succ_of_le room) noted
  · cases noted

end Walk

namespace Draft

variable {strict : Bool} {draft : Draft} {skipped : SkippedPath}

/-- What is skipped is too deep. -/
theorem mem_skipped_enterAll {final : Draft} {ds : List FieldDescriptor}
    (success : (draft.enterAll strict ds).result = .ok final) (member : skipped ∈ final.skipped) :
    skipped ∈ draft.skipped ∨
      ∃ d ∈ ds, Path.maxDepth < d.path.depth ∧ skipped = ⟨d.pathText, d.path.depth⟩ := by
  rw [skipped_enterAll success] at member
  refine (List.mem_append.1 member).imp_right fun later => ?_
  obtain ⟨d, kept, rfl⟩ := List.mem_map.1 later
  obtain ⟨noted, deep⟩ := List.mem_filter.1 kept
  exact ⟨d, noted, of_decide_eq_true deep, rfl⟩

end Draft

/-! ## The registry as a whole -/

namespace Compiler

variable {c : Compiler} {table : String} {schema : ObjectSchema} {base : Path} {compiled : CompiledSchema}

theorem isWellFormed_of_isPlace (success : (c.compileAt table schema base).result = .ok compiled)
    {d : FieldDescriptor} (place : IsPlace table c.maxNestedDepth schema base d)
    (room : d.path.depth ≤ Path.maxDepth) : d.IsWellFormed base := by
  cases place with
  | @field _ owner parent f visited declared =>
    have depth := f.depth_pathIn owner parent
    have inside : (f.pathIn owner parent).depth ≤ Path.maxDepth := room
    have checked := Field.isChecked_of_visited success visited (by omega) declared
    exact checked.isWellFormed_place (visited.extends success (by omega)) inside
  | @item _ owner parent f _ item visited declared type plain =>
    have depth := f.depth_pathIn owner parent
    have inside : ((f.pathIn owner parent).item f.keyVariable item).depth ≤ Path.maxDepth := room
    rw [Path.depth_item] at inside
    have above := visited.extends success (by omega)
    have checked := Field.isChecked_of_visited success visited (by omega) declared
    have lower := (checked.extends_pathIn above).depth_le
    exact FieldDescriptor.isWellFormed_item (checked.extends_item type plain above) lower room
      (checked.itemResolved type)
  | @level owner parent f _ item n visited declared type indexed bound =>
    have outer := Walk.depth_lt_levelIn owner parent f item n
    have inside : ((f.levelIn owner parent item n).item (KeyName.level f.keyVariable n) item).depth ≤
        Path.maxDepth := room
    rw [Path.depth_item] at inside
    have above := visited.extends success (by omega)
    have checked := Field.isChecked_of_visited success visited (by omega) declared
    have lower := above.depth_le
    exact FieldDescriptor.isWellFormed_item (checked.extends_item_levelIn type above n) (by omega) room
      (checked.itemResolved type)

/-- The descriptors of the top-level fields are registered; below a base that leaves no room there are none. -/
theorem registered_of_mem_fields (success : (c.compileAt table schema base).result = .ok compiled)
    {d : FieldDescriptor} (member : d ∈ compiled.fields) : (d.pathText, d) ∈ compiled.registry.entries := by
  obtain ⟨_, -, walked, -⟩ := compileAt_ok success
  by_cases room : base.depth < Path.maxDepth
  · rw [compiled_fields success room] at member
    obtain ⟨f, declared, rfl⟩ := List.mem_map.1 member
    refine (mem_registry_entries_iff success).2 ⟨.field .schema declared, rfl, ?_⟩
    exact (f.depth_pathIn schema base).symm ▸ room
  · rw [Walk.visitFields_result_of_deep walked room] at member
    cases member

/-- Below a base that a store accepts no skipped path is more than two steps too deep. -/
theorem depth_of_mem_skipped (success : (c.compileAt table schema base).result = .ok compiled)
    (start : base.depth ≤ Path.maxDepth) {skipped : SkippedPath} (member : skipped ∈ compiled.skipped) :
    Path.maxDepth < skipped.depth ∧ skipped.depth ≤ Path.maxDepth + 2 := by
  obtain ⟨draft, entered, -, shape⟩ := compileAt_ok success
  rw [shape] at member
  rcases Draft.mem_skipped_enterAll entered member with before | ⟨d, noted, deep, rfl⟩
  · cases before
  · have keeps := Walk.Scope.unrolling_keeps_withinReach table c.maxNestedDepth
    exact ⟨deep, Walk.forall_of_visitFields keeps schema base start noted⟩

/-- Every entry of a registry lies under the text of its path and is well-formed, and the descriptors of the
top-level fields are among the entries. Skipped are only paths of 33 or 34 steps, unless the base itself is deeper
than a store accepts. -/
theorem entries_are_well_formed (c : Compiler) (table : String) (schema : ObjectSchema) (base : Path)
    (compiled : CompiledSchema) (success : (c.compileAt table schema base).result = .ok compiled) :
    (∀ text d, (text, d) ∈ compiled.registry.entries → text = d.pathText ∧ d.IsWellFormed base) ∧
    (∀ d ∈ compiled.fields, (d.pathText, d) ∈ compiled.registry.entries) ∧
    (base.depth ≤ Path.maxDepth →
      ∀ skipped ∈ compiled.skipped, skipped.depth = 33 ∨ skipped.depth = 34) := by
  refine ⟨fun text d entry => ?_, fun d => registered_of_mem_fields success, fun start skipped member => ?_⟩
  · obtain ⟨place, own, room⟩ := (mem_registry_entries_iff success).1 entry
    exact ⟨own, isWellFormed_of_isPlace success place room⟩
  · have bounds := depth_of_mem_skipped success start member
    simp only [Path.maxDepth] at bounds
    omega

/-- A path below which there is room for two more steps. -/
def roomyBase : Path :=
  ⟨List.replicate 30 (PathStep.literal "x" .map)⟩

/-- Below the base there is room for a chain of one item: the collection in it is one step too deep, and the next
item is two steps too deep. -/
theorem chainSchema_entries_are_well_formed :
    ∃ compiled, (Compiler.compileAt ⟨2, false⟩ "nodes" chainSchema roomyBase).result = .ok compiled ∧
      compiled.registry.size = 2 ∧ compiled.skipped.map SkippedPath.depth = [33, 34] ∧
      (∀ text d, (text, d) ∈ compiled.registry.entries → text = d.pathText ∧ d.IsWellFormed roomyBase) ∧
      (∀ d ∈ compiled.fields, (d.pathText, d) ∈ compiled.registry.entries) ∧
      (roomyBase.depth ≤ Path.maxDepth →
        ∀ skipped ∈ compiled.skipped, skipped.depth = 33 ∨ skipped.depth = 34) := by
  have ends : (Compiler.compileAt ⟨2, false⟩ "nodes" chainSchema roomyBase).result.toOption.any (fun compiled =>
      decide (compiled.registry.size = 2 ∧ compiled.skipped.map SkippedPath.depth = [33, 34])) = true := by
    decide
  obtain ⟨compiled, success, held⟩ := exists_eq_ok_of_any ends
  obtain ⟨size, depths⟩ := of_decide_eq_true held
  have formed := entries_are_well_formed ⟨2, false⟩ "nodes" chainSchema roomyBase compiled success
  exact ⟨compiled, success, size, depths, formed⟩

end Compiler

end DocSchema
