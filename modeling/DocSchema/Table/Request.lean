import DocSchema.Path.Form

/-!
# Table requests

A request names a registered path and binds its variables. A setter is either checked against the schema or
raw: a raw setter writes below the registered path, at the end of a continuation of literal keys.

Section 6 of the specification, the request records: `FieldGetter`, `FieldSetter`, `UnsafeFieldSetter` and
`FieldRemover`; `Setter` is one of the two setters.
-/

namespace DocSchema

open Json (Tree)

structure FieldGetter where
  path : String
  arguments : Arguments

structure FieldRemover where
  path : String
  arguments : Arguments

structure FieldSetter where
  path : String
  value : Json
  arguments : Arguments

structure RawSetter where
  basePath : String
  continuation : List String
  value : Json
  arguments : Arguments

inductive Setter where
  | checked (setter : FieldSetter)
  | raw (setter : RawSetter)

namespace FieldGetter

def toJson (g : FieldGetter) : Json :=
  .obj [("path", .str g.path), ("query_args", Arguments.toJson g.arguments)]

def ofTree? (t : Tree) : Option FieldGetter := do
  let parts ← t.parts? ["path", "query_args"]
  let path ← parts.require Tree.str? "path"
  let arguments ← parts.get Arguments.ofTree? "query_args" ∅
  return ⟨path, arguments⟩

end FieldGetter

namespace FieldRemover

def toJson (r : FieldRemover) : Json :=
  .obj [("path", .str r.path), ("query_args", Arguments.toJson r.arguments)]

def ofTree? (t : Tree) : Option FieldRemover := do
  let getter ← FieldGetter.ofTree? t
  return ⟨getter.path, getter.arguments⟩

end FieldRemover

namespace FieldSetter

def toMembers (s : FieldSetter) : List (String × Json) :=
  [("path", .str s.path), ("value", s.value), ("query_args", Arguments.toJson s.arguments)]

def toJson (s : FieldSetter) : Json :=
  .obj s.toMembers

def ofTree? (t : Tree) : Option FieldSetter := do
  let parts ← t.parts? ["path", "value", "query_args"]
  let path ← parts.require Tree.str? "path"
  let value ← parts.require Tree.value? "value"
  let arguments ← parts.get Arguments.ofTree? "query_args" ∅
  return ⟨path, value, arguments⟩

end FieldSetter

namespace RawSetter

def toMembers (s : RawSetter) : List (String × Json) :=
  [("base_path", .str s.basePath), ("continuation", .arr (s.continuation.map .str)),
    ("value", s.value), ("query_args", Arguments.toJson s.arguments)]

def toJson (s : RawSetter) : Json :=
  .obj s.toMembers

def continuation? (t : Tree) : Option (List String) := do
  (← t.items?).mapM Tree.str?

def ofTree? (t : Tree) : Option RawSetter := do
  let parts ← t.parts? ["base_path", "continuation", "value", "query_args"]
  let basePath ← parts.require Tree.str? "base_path"
  let continuation ← parts.get continuation? "continuation" []
  let value ← parts.require Tree.value? "value"
  let arguments ← parts.get Arguments.ofTree? "query_args" ∅
  return ⟨basePath, continuation, value, arguments⟩

end RawSetter

namespace Setter

/-- The path with which the setter was declared. -/
def path : Setter → String
  | .checked s => s.path
  | .raw s => s.basePath

def value : Setter → Json
  | .checked s => s.value
  | .raw s => s.value

/-- The tag comes first among the members. -/
def toJson : Setter → Json
  | .checked s => .obj (("kind", .str "safe") :: s.toMembers)
  | .raw s => .obj (("kind", .str "unsafe") :: s.toMembers)

def ofKind? (kind t : Tree) : Option Setter :=
  match kind with
  | .str "safe" => (FieldSetter.ofTree? t).map .checked
  | .str "unsafe" => (RawSetter.ofTree? t).map .raw
  | _ => none

/-- The kind stands among the members of the setter, or in front of its parts. -/
def ofTree? (t : Tree) : Option Setter :=
  if t.readable then
    match t with
    | .obj members => do
      let kind ← Tree.unique? "kind" members
      ofKind? (← kind) t
    | .arr (kind :: parts) => ofKind? kind (.arr parts)
    | _ => none
  else none

end Setter

end DocSchema
