import DocSchema.Path.Basic

/-!
# Rendering paths

Arguments bind the variables of a path to literal keys. Rendering replaces every placeholder by its key and
keeps the kind and the custom default of the level; the first variable without an argument is an error.

Section 4.3 of the specification: `render`, with `QueryArgs` as the arguments.
-/

namespace DocSchema

/-- Literal keys by variable. -/
abbrev Arguments := SortedMap String

namespace PathStep

def render (args : Arguments) (s : PathStep) : Except PathError PathStep :=
  match s.key with
  | .literal _ => .ok s
  | .placeholder name =>
    match args.get? name with
    | some key => .ok (s.rendered key)
    | none => .error (.missingArgument name)

end PathStep

namespace Path

def render (p : Path) (args : Arguments) : Except PathError Path := do
  let steps ← p.steps.mapM (PathStep.render args)
  ofSteps steps

end Path

end DocSchema
