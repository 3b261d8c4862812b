import DocSchema.Path.Step

/-!
# Field paths

A path leads from the root of a document to one of its levels. Stores accept paths of 1 to 32 steps; the
empty path stands for the whole document and only serves as a starting point.

Section 3 of the specification: `PathChain` with `child`, `extended`, `check_depth`, `placeholders` and
`to_path_string`; section 7: `PathError`.
-/

namespace DocSchema

inductive PathError where
  | unknownPath (path : String)
  | missingArgument (name : String)
  | tooDeep (depth : Nat)
  | empty
deriving DecidableEq, Repr

structure Path where
  steps : List PathStep
deriving DecidableEq, Repr

namespace Path

/-- The greatest number of steps that a store accepts. -/
def maxDepth : Nat := 32

def root : Path :=
  ⟨[]⟩

def depth (p : Path) : Nat :=
  p.steps.length

def isRoot (p : Path) : Bool :=
  p.steps.isEmpty

def child (p : Path) (step : PathStep) : Path :=
  ⟨p.steps ++ [step]⟩

def extend (p : Path) (steps : List PathStep) : Path :=
  ⟨p.steps ++ steps⟩

def last? (p : Path) : Option PathStep :=
  p.steps.getLast?

def checkDepth (p : Path) : Except PathError Unit :=
  if p.steps.isEmpty then .error .empty
  else if maxDepth < p.depth then .error (.tooDeep p.depth)
  else .ok ()

/-- A path for a store, with its depth checked. -/
def ofSteps (steps : List PathStep) : Except PathError Path := do
  Path.checkDepth ⟨steps⟩
  return ⟨steps⟩

/-- The variables of the path in order, with repetitions. -/
def variableNames (p : Path) : List String :=
  (p.steps.filter PathStep.isPlaceholder).map fun s => s.key.name

def hasPlaceholders (p : Path) : Bool :=
  p.steps.any PathStep.isPlaceholder

def labels (p : Path) : List String :=
  p.steps.map fun s => s.key.label

/-- The text under which a path is registered, such as `projects.{{projectKey}}.name`. -/
def text (p : Path) : String :=
  ".".intercalate (p.steps.map fun s => s.key.segment)

def listing (p : Path) : String :=
  "[" ++ ", ".intercalate p.labels ++ "]"

@[simp] theorem depth_root : root.depth = 0 := rfl

@[simp] theorem depth_child (p : Path) (step : PathStep) : (p.child step).depth = p.depth + 1 := by
  simp [child, depth]

@[simp] theorem depth_extend (p : Path) (steps : List PathStep) :
    (p.extend steps).depth = p.depth + steps.length := by
  simp [extend, depth]

@[simp] theorem last?_child (p : Path) (step : PathStep) : (p.child step).last? = some step := by
  simp [child, last?]

end Path

namespace PathError

def code : PathError → String
  | .unknownPath _ => "STRUCTPATH_UNKNOWN_PATH"
  | .missingArgument _ => "STRUCTPATH_MISSING_QUERY_ARGUMENT"
  | .tooDeep _ => "STRUCTPATH_PATH_TOO_DEEP"
  | .empty => "STRUCTPATH_EMPTY_PATH"

def message : PathError → String
  | .unknownPath path => s!"Unknown field path '{path}'"
  | .missingArgument name => s!"Missing query argument '{name}'"
  | .tooDeep depth => s!"Path has {depth} elements, exceeding the maximum of {Path.maxDepth}"
  | .empty => "Path chain must contain at least one element"

end PathError

end DocSchema
