import DocSchema.Table.Basic

/-!
# Reading through a table

Fields are read by path text and validated against their descriptors. An absent field gives the empty
validation.

Sections 4.5 and 11 of the specification: `get`, `get_many`, `query` and `get_record`, with `resolve_getters` and
`validate_row`.
-/

namespace DocSchema.Table

variable {σ : Type} [DocumentStore σ]

def get (t : Table) (keyValue : Json) (path : String) (args : Arguments) : TableM σ Validation := do
  let (d, p) ← TableM.ofExcept .path (t.resolve path args)
  let key ← t.recordKey keyValue
  TableM.note ⟨.storeGet, [("key", key.text), ("path", p.text), ("table", t.name)]⟩
  let v ← TableM.call (DocumentStore.getField key p)
  validate? d v

/-- A getter with the name it goes by, its descriptor and its rendered path. -/
structure ResolvedGetter where
  name : String
  descriptor : FieldDescriptor
  path : Path

def resolveGetters (t : Table) : Assoc FieldGetter → Except PathError (List ResolvedGetter)
  | [] => .ok []
  | (name, g) :: rest => do
    let (d, p) ← t.resolve g.path g.arguments
    let resolved ← t.resolveGetters rest
    return ⟨name, d, p⟩ :: resolved

/-- Validate the values read for one record, each against the descriptor of its getter. -/
def validateRow : List ResolvedGetter → List (Option Json) → TableM σ (Assoc Validation)
  | g :: getters, v :: values => do
    let r ← validate? g.descriptor v
    let row ← validateRow getters values
    return (g.name, r) :: row
  | _, _ => pure []

def validateRows (getters : List ResolvedGetter) :
    List (List (Option Json)) → TableM σ (List (Assoc Validation))
  | [] => pure []
  | values :: rest => do
    let row ← validateRow getters values
    let rows ← validateRows getters rest
    return row :: rows

/-- Read several fields of one record, each by its name. -/
def getMany (t : Table) (keyValue : Json) (getters : SortedMap FieldGetter) :
    TableM σ (Assoc Validation) := do
  let resolved ← TableM.ofExcept .path (t.resolveGetters getters.toList)
  let key ← t.recordKey keyValue
  TableM.note ⟨.storeGet,
    [("count", toString resolved.length), ("key", key.text), ("table", t.name)]⟩
  let values ← TableM.call (DocumentStore.getFields key (resolved.map ResolvedGetter.path))
  validateRow resolved values

/-- Read the fields from every record whose attribute equals the key; any top-level field may be the key. -/
def query (t : Table) (key : RecordKey) (getters : SortedMap FieldGetter) (limit : Option Nat) :
    TableM σ (List (Assoc Validation)) := do
  let resolved ← TableM.ofExcept .path (t.resolveGetters getters.toList)
  let key ← t.checkedKey key
  TableM.note ⟨.storeQuery,
    [("count", toString resolved.length), ("key", key.text), ("table", t.name)]⟩
  let rows ← TableM.call (DocumentStore.queryByKey key (resolved.map ResolvedGetter.path) limit)
  validateRows resolved rows

def getRecord (t : Table) (keyValue : Json) : TableM σ Validation := do
  let key ← t.recordKey keyValue
  let record ← TableM.call (DocumentStore.getRecord key)
  validate? t.compiled.record record

end DocSchema.Table
