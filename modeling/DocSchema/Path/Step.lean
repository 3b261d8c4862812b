import DocSchema.Json.Basic

/-!
# Steps of a field path

A step leads one level down into a nested document, to a member of a known name or to the item of a keyed
collection whose key a variable supplies when a request is made. It also says what a store puts there when the
level is missing.

Sections 3 and 4.1 of the specification: `PathElement` with its `PathKey`, and `DefaultType` with
`zero_value`.
-/

namespace DocSchema

/-- The kind of value stored under a step. -/
inductive StorageType where
  | any
  | string
  | int
  | float
  | bool
  | list
  | map
deriving DecidableEq, Repr

namespace StorageType

def name : StorageType → String
  | .any => "any"
  | .string => "string"
  | .int => "int"
  | .float => "float"
  | .bool => "bool"
  | .list => "list"
  | .map => "map"

def all : List StorageType :=
  [.any, .string, .int, .float, .bool, .list, .map]

def ofName? (name : String) : Option StorageType :=
  all.find? fun t => t.name = name

/-- The empty value of the kind; an untyped level has none. -/
def zero? : StorageType → Option Json
  | .any => none
  | .string => some (.str "")
  | .int => some (.num (.int 0))
  | .float => some (.num (.float (Binary64.zero false)))
  | .bool => some (.bool false)
  | .list => some (.arr [])
  | .map => some (.obj [])

end StorageType

/-- What a step is keyed by: a literal name, or a variable that is bound when a request is made. -/
inductive StepKey where
  | literal (name : String)
  | placeholder (name : String)
deriving DecidableEq, Repr

namespace StepKey

/-- The literal name or the name of the variable. -/
def name : StepKey → String
  | .literal name => name
  | .placeholder name => name

def isPlaceholder : StepKey → Bool
  | .literal _ => false
  | .placeholder _ => true

/-- The segment in a path text: a variable stands in double braces. -/
def segment : StepKey → String
  | .literal name => name
  | .placeholder name => "\x7b\x7b" ++ name ++ "\x7d\x7d"

/-- The label in listings of a path: a variable is marked by `$key:`. -/
def label : StepKey → String
  | .literal name => name
  | .placeholder name => "$key:" ++ name

end StepKey

structure PathStep where
  key : StepKey
  type : StorageType
  custom : Option Json
deriving DecidableEq, Repr

namespace PathStep

def literal (name : String) (type : StorageType) : PathStep :=
  ⟨.literal name, type, none⟩

def placeholder (name : String) (type : StorageType) : PathStep :=
  ⟨.placeholder name, type, none⟩

def withCustom (s : PathStep) (custom : Option Json) : PathStep :=
  { s with custom }

/-- The custom default if there is one, else the empty value of the kind. -/
def default? (s : PathStep) : Option Json :=
  match s.custom with
  | some v => some v
  | none => s.type.zero?

def isPlaceholder (s : PathStep) : Bool :=
  s.key.isPlaceholder

/-- The same level under a literal key. -/
def rendered (s : PathStep) (name : String) : PathStep :=
  { s with key := .literal name }

end PathStep

end DocSchema
