import DocSchema.Json.Form
import DocSchema.Path.Render

/-!
# JSON forms of paths and arguments
-/

namespace DocSchema

open Json (Tree)

namespace StorageType

def ofTree? (t : Tree) : Option StorageType :=
  (t.alternative? false).bind ofName?

end StorageType

namespace StepKey

def toJson : StepKey → Json
  | .literal name => .obj [("kind", .str "attribute"), ("name", .str name)]
  | .placeholder name => .obj [("kind", .str "placeholder"), ("name", .str name)]

def ofKind? (kind name : String) : Option StepKey :=
  match kind with
  | "attribute" => some (.literal name)
  | "placeholder" => some (.placeholder name)
  | _ => none

/-- The kind and the name, as members or as a pair. In a pair the kind is given by its name alone. -/
def ofTree? : Tree → Option StepKey
  | .obj members => do
    let kind ← Tree.unique? "kind" members
    let name ← Tree.unique? "name" members
    ofKind? (← (← kind).alternative? false) (← (← name).str?)
  | .arr [kind, name] => do
    ofKind? (← kind.str?) (← name.str?)
  | _ => none

end StepKey

namespace PathStep

def toJson (s : PathStep) : Json :=
  .obj ([("key", s.key.toJson), ("default_type", .str s.type.name)] ++
    (s.custom.map fun v => ("default_value", v)).toList)

def ofTree? (t : Tree) : Option PathStep := do
  let parts ← t.parts? ["key", "default_type", "default_value"]
  let key ← parts.require StepKey.ofTree? "key"
  let type ← parts.require StorageType.ofTree? "default_type"
  let custom ← parts.optional Tree.value? "default_value"
  return ⟨key, type, custom⟩

end PathStep

namespace Path

def toJson (p : Path) : Json :=
  .arr (p.steps.map PathStep.toJson)

def ofTree? (t : Tree) : Option Path := do
  let steps ← (← t.items?).mapM PathStep.ofTree?
  return ⟨steps⟩

end Path

namespace Arguments

def toJson (args : Arguments) : Json :=
  .obj (args.toList.map fun a => (a.1, .str a.2))

/-- The last of equal names wins. -/
def ofTree? : Tree → Option Arguments
  | .obj members => do
    let bindings ← members.mapM fun m => m.2.str?.map fun s => (m.1, s)
    return SortedMap.ofList bindings
  | _ => none

end Arguments

end DocSchema
