import DocSchema.Proofs.Assoc
import DocSchema.Proofs.Schema.Success
import DocSchema.Proofs.Schema.TopLevel

/-!
# The order of declarations

A walk visits the fields of a model in the order in which they are declared. If models at any depth declare their
fields in another order, the walk comes to the same paths in another order. So a compilation ends well in each order or
in none, and it registers the same path texts and skips the same paths.
-/

namespace DocSchema

/-! ## Types that differ in the order of fields -/

namespace FieldType

/-- Inside an owner only a collection of self references changes. -/
theorem within_of_ne {owner : ObjectSchema} {t : FieldType} (other : ∀ keyType, t ≠ .dict keyType .selfRef) :
    t.within owner = t := by
  unfold within
  split
  · exact absurd rfl (other _)
  · rfl

/-- The types are equal but for the order in which models at any depth declare their fields. -/
inductive Reordered : FieldType → FieldType → Prop
  | refl (t : FieldType) : Reordered t t
  | trans {t u v : FieldType} (first : Reordered t u) (second : Reordered u v) : Reordered t v
  | order (name : String) (description : Option String) {fields others : List FieldDecl} (perm : fields.Perm others) :
      Reordered (.object ⟨name, description, fields⟩) (.object ⟨name, description, others⟩)
  | field (name : String) (description : Option String) (before after : List FieldDecl) (f : FieldDecl)
      {t : FieldType} (inside : Reordered f.type t) :
      Reordered (.object ⟨name, description, before ++ f :: after⟩)
        (.object ⟨name, description, before ++ { f with type := t } :: after⟩)
  | element {t u : FieldType} (inside : Reordered t u) : Reordered (.list (some t)) (.list (some u))
  | value (keyType : KeyType) {t u : FieldType} (inside : Reordered t u) :
      Reordered (.dict keyType t) (.dict keyType u)

namespace Reordered

variable {t u : FieldType} {owner other : ObjectSchema}

theorem symm (reordered : Reordered t u) : Reordered u t := by
  induction reordered with
  | refl t => exact .refl t
  | trans _ _ ih ih' => exact .trans ih' ih
  | order name description perm => exact .order name description perm.symm
  | field name description before after f _ ih =>
    exact .field name description before after { f with type := _ } ih
  | element _ ih => exact .element ih
  | value keyType _ ih => exact .value keyType ih

theorem tag_eq (reordered : Reordered t u) : t.tag = u.tag := by
  induction reordered with
  | trans _ _ ih ih' => exact ih.trans ih'
  | _ => rfl

theorem storageType_eq (reordered : Reordered t u) : t.storageType = u.storageType := by
  induction reordered with
  | trans _ _ ih ih' => exact ih.trans ih'
  | _ => rfl

theorem containsSelfRef_eq (reordered : Reordered t u) : t.containsSelfRef = u.containsSelfRef := by
  induction reordered with
  | trans _ _ ih ih' => exact ih.trans ih'
  | element _ ih => exact ih
  | value _ _ ih => exact ih
  | _ => rfl

/-- A collection stays one, with keys of the same type. -/
theorem eq_dict {keyType : KeyType} {item : FieldType} (reordered : Reordered t u) (type : t = .dict keyType item) :
    ∃ otherItem, u = .dict keyType otherItem ∧ Reordered item otherItem := by
  induction reordered generalizing item with
  | refl => exact ⟨item, type, .refl item⟩
  | trans _ _ ih ih' =>
    obtain ⟨middle, between, first⟩ := ih type
    obtain ⟨last, ended, second⟩ := ih' between
    exact ⟨last, ended, first.trans second⟩
  | value _ inside =>
    cases type
    exact ⟨_, rfl, inside⟩
  | _ => cases type

theorem eq_object {model : ObjectSchema} (reordered : Reordered t u) (type : t = .object model) :
    ∃ otherModel, u = .object otherModel := by
  induction reordered generalizing model with
  | refl => exact ⟨model, type⟩
  | trans _ _ ih ih' =>
    obtain ⟨_, between⟩ := ih type
    exact ih' between
  | order => exact ⟨_, rfl⟩
  | field => exact ⟨_, rfl⟩
  | _ => cases type

theorem misusesSelfRef_eq (reordered : Reordered t u) : t.misusesSelfRef = u.misusesSelfRef := by
  have dict (keyType : KeyType) (item : FieldType) : (FieldType.dict keyType item).misusesSelfRef =
      (item.containsSelfRef && decide (item.tag ≠ .selfRef)) := by
    cases item <;> simp [misusesSelfRef, containsSelfRef, tag]
  induction reordered with
  | trans _ _ ih ih' => exact ih.trans ih'
  | element inside => exact inside.containsSelfRef_eq
  | value keyType inside => rw [dict, dict, inside.containsSelfRef_eq, inside.tag_eq]
  | _ => rfl

theorem ne_dict (reordered : Reordered t u) (other : ∀ keyType item, t ≠ .dict keyType item) (keyType : KeyType)
    (item : FieldType) : u ≠ .dict keyType item := by
  intro type
  obtain ⟨item, type, -⟩ := reordered.symm.eq_dict type
  exact other keyType item type

theorem ne_object (reordered : Reordered t u) (other : ∀ model, t ≠ .object model) (model : ObjectSchema) :
    u ≠ .object model := by
  intro type
  obtain ⟨model, type⟩ := reordered.symm.eq_object type
  exact other model type

/-- A collection of self references is what it was. -/
theorem eq_selfRefs {keyType : KeyType} (reordered : Reordered t u) (type : t = .dict keyType .selfRef) :
    u = .dict keyType .selfRef := by
  obtain ⟨item, rfl, inside⟩ := reordered.eq_dict type
  have tag : item.tag = .selfRef := inside.tag_eq.symm
  cases item <;> simp_all [FieldType.tag]

/-- Read inside reordered owners, reordered types stay so: a self reference becomes the one owner or the other. -/
theorem within (reordered : Reordered t u) (owners : Reordered (.object owner) (.object other)) :
    Reordered (t.within owner) (u.within other) := by
  by_cases held : ∃ keyType, t = .dict keyType .selfRef
  · obtain ⟨keyType, type⟩ := held
    rw [reordered.eq_selfRefs type, type]
    exact .value keyType owners
  · have first : ∀ keyType, t ≠ .dict keyType .selfRef := not_exists.1 held
    have second : ∀ keyType, u ≠ .dict keyType .selfRef := fun keyType type =>
      first keyType (reordered.symm.eq_selfRefs type)
    rw [within_of_ne first, within_of_ne second]
    exact reordered

end Reordered

end FieldType

namespace Field

open FieldType

variable {table : String} {owner other : ObjectSchema} {parent : Path} {f : FieldDecl} {t : FieldType}

theorem keyName?_reordered (inside : Reordered f.type t) (keyed : ∃ keyName, f.keyName? = .ok keyName) :
    ∃ keyName, keyName? { f with type := t } = .ok keyName := by
  by_cases dict : ∃ keyType item, f.type = .dict keyType item
  · obtain ⟨keyType, item, type⟩ := dict
    obtain ⟨otherItem, otherType, same⟩ := inside.eq_dict type
    have keyed := (keyName?_dict type).1 keyed
    rw [same.tag_eq] at keyed
    exact (keyName?_dict (f := { f with type := t }) otherType).2 keyed
  · have other : ∀ keyType item, f.type ≠ .dict keyType item :=
      fun keyType item type => dict ⟨keyType, item, type⟩
    exact (keyName?_other (f := { f with type := t }) (inside.ne_dict other)).2 ((keyName?_other other).1 keyed)

/-- A declaration passes its checks in either order. -/
theorem describe_reordered (other : ObjectSchema) (inside : Reordered f.type t)
    (described : f.describe table owner parent = .ok (f.place table owner parent)) :
    describe table other parent { f with type := t } = .ok (place table other parent { f with type := t }) := by
  obtain ⟨faultless, bounded, keyed, used⟩ := describe_ok_iff.1 described
  exact describe_ok_iff.2 ⟨faultless, bounded, keyName?_reordered inside keyed, inside.misusesSelfRef_eq ▸ used⟩

/-- The path of a field is the same in either order. -/
theorem pathIn_reordered (inside : Reordered f.type t) (owners : Reordered (.object owner) (.object other)) :
    pathIn other parent { f with type := t } = f.pathIn owner parent := by
  have storage := (inside.within owners).storageType_eq
  unfold pathIn step typeIn
  rw [storage]

end Field

theorem Path.item_congr {item other : FieldType} (storage : item.storageType = other.storageType) (collection : Path)
    (keyName : String) : collection.item keyName item = collection.item keyName other := by
  rw [Path.item, Path.item, storage]

/-! ## Walks that come to the same paths -/

namespace Walk

open FieldType

variable {α β γ δ : Type}

/-- If the walk ends well, so does the other one, and it comes to the same paths in some order. -/
def ReordersTo (x : Walk α) (y : Walk β) : Prop :=
  ∀ a, x.result = .ok a → (∃ b, y.result = .ok b) ∧ x.paths.Perm y.paths

theorem paths_bind {x : Walk α} {a : α} (ended : x.result = .ok a) (next : α → Walk β) :
    (x >>= next).paths = x.paths ++ (next a).paths := by
  obtain ⟨notes, _ | b⟩ := x
  · cases ended
  · cases ended
    exact List.map_append

namespace ReordersTo

theorem refl (x : Walk α) : x.ReordersTo x :=
  fun a ended => ⟨⟨a, ended⟩, List.Perm.refl _⟩

theorem trans {x : Walk α} {y : Walk β} {z : Walk γ} (first : x.ReordersTo y) (second : y.ReordersTo z) :
    x.ReordersTo z := by
  intro a ended
  obtain ⟨⟨b, between⟩, same⟩ := first a ended
  obtain ⟨last, sameThen⟩ := second b between
  exact ⟨last, same.trans sameThen⟩

theorem bind {x : Walk α} {y : Walk β} {next : α → Walk γ} {other : β → Walk δ} (first : x.ReordersTo y)
    (later : ∀ a b, (next a).ReordersTo (other b)) : (x >>= next).ReordersTo (y >>= other) := by
  intro c ended
  obtain ⟨a, here, there⟩ := Traced.bind_ok_iff.1 ended
  obtain ⟨⟨b, otherHere⟩, same⟩ := first a here
  obtain ⟨⟨d, otherThere⟩, sameLater⟩ := later a b c there
  refine ⟨⟨d, Traced.bind_ok_iff.2 ⟨b, otherHere, otherThere⟩⟩, ?_⟩
  rw [paths_bind here, paths_bind otherHere]
  exact same.append sameLater

/-- What the walks return at the end does not matter. -/
theorem of_forget {x : Walk α} {y : Walk β}
    (same : (do let _ ← x; return () : Walk Unit).ReordersTo (do let _ ← y; return () : Walk Unit)) :
    x.ReordersTo y := by
  intro a ended
  obtain ⟨⟨_, otherEnded⟩, paths⟩ := same () (Traced.bind_ok_iff.2 ⟨a, ended, rfl⟩)
  obtain ⟨b, otherEnded, -⟩ := Traced.bind_ok_iff.1 otherEnded
  rw [paths_bind ended, paths_bind otherEnded] at paths
  exact ⟨⟨b, otherEnded⟩, (List.perm_append_right_iff _).1 paths⟩

/-- Both walks note a place at the same path and go on in the same way. -/
theorem note_ite {room : Prop} [Decidable room] {d e : FieldDescriptor} {onward beside : Walk α}
    {otherOnward otherBeside : Walk β} (path : d.path = e.path) (goesOn : onward.ReordersTo otherOnward)
    (turns : beside.ReordersTo otherBeside) :
    (do Traced.note d; if room then onward else beside : Walk α).ReordersTo
      (do Traced.note e; if room then otherOnward else otherBeside : Walk β) := by
  have noted : ReordersTo (Traced.note d) (Traced.note e) := by
    intro _ _
    refine ⟨⟨(), rfl⟩, ?_⟩
    rw [paths, paths, Traced.note, Traced.note, List.map_singleton, List.map_singleton, path]
  refine noted.bind fun _ _ => ?_
  split
  · exact goesOn
  · exact turns

/-- Walks of one after the other, in two orders. -/
theorem forM_perm {fields others : List FieldDecl} (visit : FieldDecl → Walk Unit) (perm : fields.Perm others) :
    (forM fields visit : Walk Unit).ReordersTo (forM others visit : Walk Unit) := by
  induction perm with
  | nil => exact refl _
  | cons f _ ih => exact (refl (visit f)).bind fun _ _ => ih
  | swap f g rest =>
    intro _ ended
    obtain ⟨a, first, ended⟩ := Traced.bind_ok_iff.1 ended
    obtain ⟨b, second, ended⟩ := Traced.bind_ok_iff.1 ended
    refine ⟨⟨_, Traced.bind_ok_iff.2 ⟨b, second, Traced.bind_ok_iff.2 ⟨a, first, ended⟩⟩⟩, ?_⟩
    rw [List.forM_cons, List.forM_cons, List.forM_cons, List.forM_cons, paths_bind first, paths_bind second,
      paths_bind second, paths_bind first]
    exact List.perm_append_comm_assoc _ _ _
  | trans _ _ ih ih' => exact ih.trans ih'

/-- Walks of one after the other, each with its counterpart. -/
theorem forM_forall₂ {fields others : List FieldDecl} {visit otherVisit : FieldDecl → Walk Unit}
    (each : List.Forall₂ (fun f g => (visit f).ReordersTo (otherVisit g)) fields others) :
    (forM fields visit : Walk Unit).ReordersTo (forM others otherVisit : Walk Unit) := by
  induction each with
  | nil => exact refl _
  | cons first _ ih => exact first.bind fun _ _ => ih

end ReordersTo

/-! ## Fields, one after the other -/

/-- Visit one field of `owner`. -/
def visitField (s : Scope) (owner : ObjectSchema) (parent : Path) (f : FieldDecl) : Walk Unit := do
  let d ← Traced.ofExcept (f.describe s.table owner parent)
  if ← reach d then visitBelow s f d f.type else return ()

theorem visitField_eq {s : Scope} {owner : ObjectSchema} {parent : Path} {f : FieldDecl}
    (described : f.describe s.table owner parent = .ok (f.place s.table owner parent)) :
    visitField s owner parent f = (do
      Traced.note (f.place s.table owner parent)
      if parent.depth < Path.maxDepth then visitBelow s f (f.place s.table owner parent) f.type
      else return ()) := by
  rw [visitField, described]
  exact reach_place s.table owner parent f _ _

/-- A walk of fields visits them one after the other. -/
theorem forM_visitField (s : Scope) (owner : ObjectSchema) (parent : Path) (fields : List FieldDecl) :
    (do let _ ← visitFields s owner parent fields; return () : Walk Unit) =
      forM fields (visitField s owner parent) := by
  induction fields with
  | nil => rfl
  | cons f rest ih =>
    rw [List.forM_cons, ← ih, visitFields, visitField]
    simp only [bind_assoc]
    refine congrArg _ (funext fun d => congrArg _ (funext fun below => ?_))
    cases below <;> simp

theorem visitObject_object (s : Scope) (path : Path) (model : ObjectSchema) :
    visitObject s path (.object model) = forM model.fields (visitField s model path) :=
  forM_visitField s model path model.fields

/-! ## Walks of reordered types -/

/-- What the scope adds below an indexed collection does not depend on the order of declarations. -/
def Scope.RespectsOrder (s : Scope) : Prop :=
  ∀ {item other : FieldType}, Reordered item other → ∀ (f : FieldDecl) (t : FieldType) (keyName : String)
    (collection : Path), (s.unroll f keyName item collection).ReordersTo
      (s.unroll { f with type := t } keyName other collection)

/-- Walks of the two types come to the same paths, and so do walks of what the types hold as collections. -/
structure Alike (s : Scope) (t u : FieldType) : Prop where
  itself (path : Path) : (visitObject s path t).ReordersTo (visitObject s path u)
  values {keyType : KeyType} {item other : FieldType} (first : t = .dict keyType item)
    (second : u = .dict keyType other) (path : Path) : (visitObject s path item).ReordersTo (visitObject s path other)

theorem Alike.refl (s : Scope) (t : FieldType) : Alike s t t where
  itself path := .refl _
  values first second path := by
    cases first.symm.trans second
    exact .refl _

section Alike

variable {s : Scope} {owner other : ObjectSchema}

/-- What lies below a field of which the type is reordered. -/
theorem visitBelow_reordersTo (respects : s.RespectsOrder) {f : FieldDecl} {t : FieldType} {parent : Path}
    (described : f.describe s.table owner parent = .ok (f.place s.table owner parent))
    (inside : Reordered f.type t) (alike : Alike s f.type t) (owners : Reordered (.object owner) (.object other)) :
    (visitBelow s f (f.place s.table owner parent) f.type).ReordersTo
      (visitBelow s { f with type := t } (Field.place s.table other parent { f with type := t }) t) := by
  have path : Field.pathIn other parent { f with type := t } = f.pathIn owner parent :=
    Field.pathIn_reordered inside owners
  have types : Reordered (f.typeIn owner) (Field.typeIn other { f with type := t }) := inside.within owners
  cases type : f.typeIn owner with
  | object inner =>
    obtain ⟨otherInner, otherType⟩ := types.eq_object type
    rw [visitBelow_object type, visitBelow_object (f := { f with type := t }) otherType, path,
      ← FieldType.within_eq_object type, ← FieldType.within_eq_object otherType]
    exact alike.itself _
  | dict keyType item =>
    obtain ⟨otherItem, otherType, items⟩ := types.eq_dict type
    cases indexed : KeyName.isIndexed f.keyVariable with
    | true =>
      rw [visitBelow_indexed type indexed, visitBelow_indexed (f := { f with type := t }) otherType indexed, path]
      exact respects items f t _ _
    | false =>
      have otherDescribed := Field.describe_reordered other inside described
      obtain ⟨dict, walked⟩ := visitBelow_item described type indexed
      obtain ⟨otherDict, otherWalked⟩ :=
        visitBelow_item (f := { f with type := t }) otherDescribed otherType indexed
      have keyVariable : Field.keyVariable { f with type := t } = f.keyVariable := rfl
      rw [walked, otherWalked, visitItem_eq, visitItem_eq, path, keyVariable,
        ← Path.item_congr items.storageType_eq]
      refine ReordersTo.note_ite ?_ (alike.values dict otherDict _) (.refl _)
      exact Path.item_congr items.storageType_eq _ _
  | _ =>
    have object : ∀ model, f.typeIn owner ≠ .object model := by simp [type]
    have dict : ∀ keyType item, f.typeIn owner ≠ .dict keyType item := by simp [type]
    rw [visitBelow_other owner object dict,
      visitBelow_other (f := { f with type := t }) other (types.ne_object object) (types.ne_dict dict)]
    exact .refl _

/-- A field of which the type is reordered, in reordered owners. -/
theorem visitField_reordersTo (respects : s.RespectsOrder) {f : FieldDecl} {t : FieldType} (inside : Reordered f.type t)
    (alike : Alike s f.type t) (owners : Reordered (.object owner) (.object other)) (parent : Path) :
    (visitField s owner parent f).ReordersTo (visitField s other parent { f with type := t }) := by
  cases described : f.describe s.table owner parent with
  | error fault =>
    intro _ ended
    rw [visitField, described] at ended
    cases ended
  | ok d =>
    obtain ⟨rfl, -⟩ := Field.describe_ok described
    rw [visitField_eq described, visitField_eq (Field.describe_reordered other inside described)]
    refine ReordersTo.note_ite (Field.pathIn_reordered inside owners).symm ?_ (.refl _)
    exact visitBelow_reordersTo respects described inside alike owners

/-- Fields with their types as they are, in reordered owners. -/
theorem visitFields_reordersTo (respects : s.RespectsOrder) (owners : Reordered (.object owner) (.object other))
    (parent : Path) (fields : List FieldDecl) :
    List.Forall₂ (fun f g => (visitField s owner parent f).ReordersTo (visitField s other parent g)) fields fields :=
  List.forall₂_same.2 fun f _ => visitField_reordersTo respects (.refl f.type) (.refl s f.type) owners parent

/-- In a scope that respects the order of declarations, walks of reordered types come to the same paths. -/
theorem alike_of_reordered (respects : s.RespectsOrder) {t u : FieldType} (reordered : Reordered t u) :
    Alike s t u := by
  induction reordered with
  | refl t => exact .refl s t
  | trans first _ ih ih' =>
    refine ⟨fun path => (ih.itself path).trans (ih'.itself path), fun type otherType path => ?_⟩
    obtain ⟨_, between, -⟩ := first.eq_dict type
    exact (ih.values type between path).trans (ih'.values between otherType path)
  | order name description perm =>
    -- First the same declarations in the other owner, then the declarations in the other order.
    refine ⟨fun path => ?_, fun type => nomatch type⟩
    have owners := Reordered.order name description perm
    rw [visitObject_object, visitObject_object]
    exact (ReordersTo.forM_forall₂ (visitFields_reordersTo respects owners path _)).trans (.forM_perm _ perm)
  | field name description before after f inside ih =>
    refine ⟨fun path => ?_, fun type => nomatch type⟩
    have owners := Reordered.field name description before after f inside
    have same := visitFields_reordersTo respects owners path
    rw [visitObject_object, visitObject_object]
    have changed := visitField_reordersTo respects inside ih owners path
    exact ReordersTo.forM_forall₂ (List.rel_append (same before) (.cons changed (same after)))
  | element => exact ⟨fun _ => .refl _, fun type => nomatch type⟩
  | value _ _ ih =>
    refine ⟨fun _ => .refl _, fun type otherType path => ?_⟩
    cases type
    cases otherType
    exact ih.itself path

/-- Within a level nothing is added. -/
theorem Scope.flat_respectsOrder (table : String) : (Scope.flat table).RespectsOrder :=
  fun _ _ _ _ _ => .refl _

/-- The levels of an indexed collection with reordered items. Within a level the items are walked in the flat scope, so
what holds of that scope is enough, although the items may declare the collection itself. -/
theorem unrollLevels_reordersTo {item otherItem : FieldType} (items : Reordered item otherItem)
    (table keyName : String) (step : PathStep) (count index : Nat) (collection : Path) :
    (unrollLevels table keyName item step count index collection).ReordersTo
      (unrollLevels table keyName otherItem step count index collection) := by
  have alike := alike_of_reordered (Scope.flat_respectsOrder table) items
  induction count generalizing index collection with
  | zero => exact .refl _
  | succ count ih =>
    have path := Path.item_congr items.storageType_eq collection (KeyName.level keyName index)
    rw [unrollLevels_succ, unrollLevels_succ, path]
    refine ReordersTo.note_ite path ?_ (.refl _)
    exact (alike.itself _).bind fun _ _ => ih (index + 1) _

theorem Scope.unrolling_respectsOrder (table : String) (levels : Nat) :
    (Scope.unrolling table levels).RespectsOrder := by
  intro item otherItem items f t keyName collection
  unfold Scope.unrolling
  dsimp only
  cases collection.last? with
  | none => exact .refl _
  | some step => exact unrollLevels_reordersTo items table keyName step _ 0 collection

end Alike

/-- A walk of a whole schema. -/
theorem ofSchema_reordersTo {schema other : ObjectSchema} (reordered : Reordered (.object schema) (.object other))
    (table : String) (levels : Nat) (base : Path) :
    (ofSchema table levels schema base).ReordersTo (ofSchema table levels other base) := by
  have alike := alike_of_reordered (Scope.unrolling_respectsOrder table levels) reordered
  exact .of_forget (alike.itself base)

end Walk

/-! ## Compilations -/

namespace Compiler

open FieldType

variable {c : Compiler} {table : String} {schema other : ObjectSchema} {base : Path}

/-- What compiles in one order compiles in another. -/
theorem compileAt_reordered (reordered : Reordered (.object schema) (.object other))
    (success : ∃ compiled, (c.compileAt table schema base).result = .ok compiled) :
    ∃ compiled, (c.compileAt table other base).result = .ok compiled := by
  obtain ⟨⟨fields, walked⟩, apart, shallow⟩ := compileAt_ok_iff.1 success
  obtain ⟨ended, same⟩ := Walk.ofSchema_reordersTo reordered table c.maxNestedDepth base fields walked
  have paths := (same.pairwise_iff Path.Apart.symm).1 (Walk.pairwise_apart_iff.1 apart)
  refine compileAt_ok_iff.2 ⟨ended, Walk.pairwise_apart_iff.2 paths, fun strict e noted => ?_⟩
  obtain ⟨d, before, path⟩ := List.mem_map.1 (same.mem_iff.2 (List.mem_map_of_mem noted))
  rw [← path]
  exact shallow strict d before

/-- In whatever order the models of a schema declare their fields, the schema compiles or it does not, and if it does,
the same path texts are registered and the same paths are skipped, in whatever order. -/
theorem order_of_declarations_is_free (c : Compiler) (table : String) (schema other : ObjectSchema) (base : Path)
    (reordered : Reordered (.object schema) (.object other)) :
    ((∃ compiled, (c.compileAt table schema base).result = .ok compiled) ↔
      ∃ compiled, (c.compileAt table other base).result = .ok compiled) ∧
    ∀ compiled otherCompiled, (c.compileAt table schema base).result = .ok compiled →
      (c.compileAt table other base).result = .ok otherCompiled →
      compiled.registry.names = otherCompiled.registry.names ∧ compiled.skipped.Perm otherCompiled.skipped := by
  refine ⟨⟨compileAt_reordered reordered, compileAt_reordered reordered.symm⟩, ?_⟩
  intro compiled otherCompiled success otherSuccess
  obtain ⟨_, _, walked, _⟩ := compileAt_ok success
  obtain ⟨-, same⟩ := Walk.ofSchema_reordersTo reordered table c.maxNestedDepth base _ walked
  constructor
  · apply compiled.registry.sorted.names_eq otherCompiled.registry.sorted
    intro text
    have registered := mem_registry_names_iff success text
    have otherRegistered := mem_registry_names_iff otherSuccess text
    simp only [same.mem_iff] at registered
    exact registered.trans otherRegistered.symm
  · rw [skipped_eq success, skipped_eq otherSuccess]
    exact (same.filter _).map _

/-- A size, in two orders. -/
def sizeModel : ObjectSchema :=
  ⟨"Size", none, [Field.plain "width" .int, Field.plain "height" .int]⟩

def turnedSizeModel : ObjectSchema :=
  ⟨"Size", none, [Field.plain "height" .int, Field.plain "width" .int]⟩

/-- Boxes in boxes. -/
def boxesField : FieldDecl :=
  { Field.plain "boxes" (.dict .string .selfRef) with keyName := some "box{i}" }

def boxSchema : ObjectSchema :=
  ⟨"Box", none, [Field.plain "label" .string, boxesField, Field.plain "size" (.object sizeModel)]⟩

def turnedBoxSchema : ObjectSchema :=
  ⟨"Box", none, [boxesField, Field.plain "size" (.object turnedSizeModel), Field.plain "label" .string]⟩

theorem boxSchema_reordered : Reordered (.object boxSchema) (.object turnedBoxSchema) := by
  have size : Reordered (.object sizeModel) (.object turnedSizeModel) := .order "Size" none (.swap _ _ [])
  have inside := Reordered.field "Box" none [Field.plain "label" .string, boxesField] []
    (Field.plain "size" (.object sizeModel)) size
  have outside := Reordered.order "Box" none (List.perm_append_singleton (Field.plain "label" .string)
    [boxesField, Field.plain "size" (.object turnedSizeModel)]).symm
  exact inside.trans outside

/-- Boxes in boxes on two levels, and their sizes, have the same paths in either order. -/
theorem boxSchema_order_is_free :
    Reordered (.object boxSchema) (.object turnedBoxSchema) ∧
    ∃ compiled turned, (Compiler.compileAt ⟨2, true⟩ "boxes" boxSchema Path.root).result = .ok compiled ∧
      (Compiler.compileAt ⟨2, true⟩ "boxes" turnedBoxSchema Path.root).result = .ok turned ∧
      compiled.fields.map FieldDescriptor.name = ["label", "boxes", "size"] ∧
      turned.fields.map FieldDescriptor.name = ["boxes", "size", "label"] ∧
      compiled.registry.size = 17 ∧ compiled.registry.names = turned.registry.names ∧
      compiled.skipped.Perm turned.skipped := by
  have ends : (Compiler.compileAt ⟨2, true⟩ "boxes" boxSchema Path.root).result.toOption.any (fun compiled =>
      decide (compiled.registry.size = 17)) = true := by
    decide +kernel
  obtain ⟨compiled, success, size⟩ := exists_eq_ok_of_any ends
  obtain ⟨either, same⟩ := order_of_declarations_is_free ⟨2, true⟩ "boxes" boxSchema turnedBoxSchema Path.root
    boxSchema_reordered
  obtain ⟨turned, otherSuccess⟩ := either.1 ⟨compiled, success⟩
  obtain ⟨names, skipped⟩ := same compiled turned success otherSuccess
  have room : Path.root.depth < Path.maxDepth := by decide
  have fields := compiled_fields success room
  have otherFields := compiled_fields otherSuccess room
  refine ⟨boxSchema_reordered, compiled, turned, success, otherSuccess, ?_, ?_, of_decide_eq_true size, names,
    skipped⟩
  · rw [fields]
    rfl
  · rw [otherFields]
    rfl

end Compiler

end DocSchema
