import DocSchema.Json.Basic

/-!
# Trees of JSON texts

A tree is a JSON text as it is spelled out: members keep their order and their repetitions, and a part that
holds no value (a string with an unpaired surrogate, a number beyond binary64, a container nested too
deeply) is kept as a leaf of its own. Such a leaf is an error only where its value is asked for.
-/

namespace DocSchema.Json

inductive Tree where
  | null
  | bool (value : Bool)
  | num (value : Number)
  | str (value : String)
  | arr (items : List Tree)
  | obj (members : List (String × Tree))
  | unreadable
deriving Repr

namespace Tree

instance : Inhabited Tree := ⟨.null⟩

mutual

/-- The value of a tree without unreadable parts, in canonical form. -/
def value? : Tree → Option Json
  | .null => some .null
  | .bool b => some (.bool b)
  | .num n => some (.num n)
  | .str s => some (.str s)
  | .arr items => (itemValues? items).map .arr
  | .obj members => (memberValues? members).map fun ms => .obj (Assoc.ofList ms)
  | .unreadable => none

def itemValues? : List Tree → Option (List Json)
  | [] => some []
  | t :: rest => do
    let v ← value? t
    let vs ← itemValues? rest
    return v :: vs

def memberValues? : List (String × Tree) → Option (List (String × Json))
  | [] => some []
  | (name, t) :: rest => do
    let v ← value? t
    let vs ← memberValues? rest
    return (name, v) :: vs

end

mutual

def ofJson : Json → Tree
  | .null => .null
  | .bool b => .bool b
  | .num n => .num n
  | .str s => .str s
  | .arr items => .arr (ofItems items)
  | .obj members => .obj (ofMembers members)

def ofItems : List Json → List Tree
  | [] => []
  | v :: rest => ofJson v :: ofItems rest

def ofMembers : List (String × Json) → List (String × Tree)
  | [] => []
  | (name, v) :: rest => (name, ofJson v) :: ofMembers rest

end

/-- Every part of the tree has a value. -/
def readable (t : Tree) : Bool :=
  t.value?.isSome

end Tree

end DocSchema.Json
