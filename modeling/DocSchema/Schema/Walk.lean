import DocSchema.Schema.Descriptor
import DocSchema.Traced

/-!
# Walking a schema

A walk visits the places that a schema declares, in declaration order, and notes the descriptor of each.
Below a place that is deeper than a store allows nothing is visited. Only an indexed collection repeats
itself: it is unrolled into levels, each of which holds the item and then the collection again, and within
the items of a level no other indexed collection is unrolled.

Section 4.2 of the specification: `compile_object`, `compile_item` and `unroll_collection`.
-/

namespace DocSchema

/-- Places reached, and the error that ended the walk early. -/
abbrev Walk := Traced FieldDescriptor SchemaError

namespace Walk

/-- Note a place, and tell whether the walk goes on below it. -/
def reach (d : FieldDescriptor) : Walk Bool := do
  Traced.note d
  return d.path.depth ≤ Path.maxDepth

/-- What stays the same during a walk: the table, and what an indexed collection adds below itself, given
its declaration, its key name, its item type and its path. -/
structure Scope where
  table : String
  unroll : FieldDecl → String → FieldType → Path → Walk Unit

mutual

/-- Visit the fields of `owner` below `parent`. The result lists the places at which the walk went on. -/
def visitFields (s : Scope) (owner : ObjectSchema) (parent : Path) :
    List FieldDecl → Walk (List FieldDescriptor)
  | [] => pure []
  | f :: rest => do
    let d ← Traced.ofExcept (f.describe s.table owner parent)
    if ← reach d then
      visitBelow s f d f.type
      let ds ← visitFields s owner parent rest
      return d :: ds
    else visitFields s owner parent rest

/-- Visit what lies below the field `f`, described by `d`. -/
def visitBelow (s : Scope) (f : FieldDecl) (d : FieldDescriptor) : FieldType → Walk Unit
  | .object model => do
    let _ ← visitFields s model d.path model.fields
    return ()
  | .dict _ valueType =>
    match d.keyName, d.itemType with
    | some keyName, some itemType =>
      if KeyName.isIndexed keyName then s.unroll f keyName itemType d.path
      else visitItem s keyName d.path valueType
    | _, _ => pure ()
  | _ => pure ()

/-- Visit the item of a collection and, if it is an object, its fields. -/
def visitItem (s : Scope) (keyName : String) (collection : Path) : FieldType → Walk Unit
  | .object model => do
    let d := FieldDescriptor.item s.table keyName (.object model) collection
    if ← reach d then
      let _ ← visitFields s model d.path model.fields
      return ()
    else return ()
  | t => do
    let _ ← reach (FieldDescriptor.item s.table keyName t collection)
    return ()

end

/-- Within a level of an indexed collection no other one is unrolled. -/
def Scope.flat (table : String) : Scope :=
  ⟨table, fun _ _ _ _ => pure ()⟩

/-- Visit the fields of an item of an indexed collection. -/
def visitLevel (table : String) (item : FieldType) (path : Path) : Walk Unit :=
  match item with
  | .object model => do
    let _ ← visitFields (.flat table) model path model.fields
    return ()
  | _ => pure ()

/-- Visit at most `count` levels from number `index` on: the item, its fields, and below it the collection
again by the same `step`. The first level that is too deep is the last one noted. -/
def unrollLevels (table keyName : String) (item : FieldType) (step : PathStep) :
    (count index : Nat) → (collection : Path) → Walk Unit
  | 0, _, _ => pure ()
  | count + 1, index, collection => do
    let d := FieldDescriptor.item table (KeyName.level keyName index) item collection
    if ← reach d then
      visitLevel table item d.path
      unrollLevels table keyName item step count (index + 1) (d.path.child step)
    else return ()

/-- Indexed collections are unrolled into their own number of levels, or else into `levels`. -/
def Scope.unrolling (table : String) (levels : Nat) : Scope :=
  ⟨table, fun f keyName item collection =>
    match collection.last? with
    | some step => unrollLevels table keyName item step (f.maxNestedDepth.getD levels) 0 collection
    | none => pure ()⟩

/-- Visit a whole schema below `base`. -/
def ofSchema (table : String) (levels : Nat) (schema : ObjectSchema) (base : Path) :
    Walk (List FieldDescriptor) :=
  visitFields (.unrolling table levels) schema base schema.fields

end Walk

end DocSchema
