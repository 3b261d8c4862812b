import DocSchema.Json.Reader

/-!
# Forms of declared types

How the value of a declared type is found in a tree. A structure is an object with known members, in any
order, or an array of its parts in declaration order; members that are not known are ignored, and a known
member must not be repeated. A named alternative is its name, or an object with its name as the only member.
-/

namespace DocSchema.Json.Tree

def str? : Tree → Option String
  | .str s => some s
  | _ => none

def bool? : Tree → Option Bool
  | .bool b => some b
  | _ => none

/-- A natural number below `bound`, written as an integer. -/
def nat? (bound : Nat) : Tree → Option Nat
  | .num (.int (.ofNat n)) => if n < bound then some n else none
  | _ => none

def items? : Tree → Option (List Tree)
  | .arr items => some items
  | _ => none

/-- The name of an alternative. A `nested` form is one inside a field type or a setter, where an empty
object serves as well as null. -/
def alternative? (nested : Bool) : Tree → Option String
  | .str name => some name
  | .obj [(name, .null)] => some name
  | .obj [(name, .obj [])] => if nested then some name else none
  | _ => none

/-- The parts of a structure by name. -/
structure Parts where
  found : List (String × Tree)

/-- The member of this name, `some none` if there is none and `none` if it is repeated. -/
def unique? (name : String) (members : List (String × Tree)) : Option (Option Tree) :=
  match members.filter fun m => m.1 = name with
  | [] => some none
  | [m] => some (some m.2)
  | _ => none

def parts? (names : List String) : Tree → Option Parts
  | .obj members =>
    let known := members.filter fun m => names.contains m.1
    if (known.map Prod.fst).Nodup then some ⟨known⟩ else none
  | .arr items => if items.length ≤ names.length then some ⟨names.zip items⟩ else none
  | _ => none

namespace Parts

variable {α : Type}

def find? (p : Parts) (name : String) : Option Tree :=
  Assoc.get? name p.found

/-- A part that must be there. -/
def require (p : Parts) (read : Tree → Option α) (name : String) : Option α :=
  (p.find? name).bind read

/-- A part with a default. -/
def get (p : Parts) (read : Tree → Option α) (name : String) (default : α) : Option α :=
  match p.find? name with
  | none => some default
  | some t => read t

/-- A part that may be absent or null. -/
def optional (p : Parts) (read : Tree → Option α) (name : String) : Option (Option α) :=
  match p.find? name with
  | none | some .null => some none
  | some t => (read t).map some

end Parts

end DocSchema.Json.Tree
