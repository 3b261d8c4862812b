import DocSchema.Path.Render
import DocSchema.Traced

/-!
# Rendered paths

Rendering ends well exactly if every variable of a path is bound and the path is one that a store accepts. Then
each step has a literal key, its own or the one that its variable is bound to, and is otherwise as it was.
-/

namespace DocSchema

namespace PathStep

/-- The literal key of the step under arguments that bind its variable. -/
def keyUnder (args : Arguments) (s : PathStep) : String :=
  match s.key with
  | .literal name => name
  | .placeholder name => (args.get? name).getD ""

/-- The step with its literal key. -/
def under (args : Arguments) (s : PathStep) : PathStep :=
  s.rendered (s.keyUnder args)

variable {args : Arguments} {s r : PathStep}

@[simp] theorem key_under (args : Arguments) (s : PathStep) :
    (s.under args).key = .literal (s.keyUnder args) := rfl

theorem keyUnder_literal {name : String} (key : s.key = .literal name) (args : Arguments) :
    s.keyUnder args = name := by
  simp only [keyUnder, key]

theorem render_ok (success : s.render args = .ok r) : r = s.under args := by
  obtain ⟨key, type, custom⟩ := s
  cases key with
  | literal name =>
    cases success
    rfl
  | placeholder name =>
    unfold render at success
    dsimp only at success
    split at success
    · next key bound =>
      cases success
      simp only [under, keyUnder, bound, Option.getD_some]
    · cases success

theorem render_of_bound (bound : ∀ name, s.key = .placeholder name → ∃ key, args.get? name = some key) :
    s.render args = .ok (s.under args) := by
  cases success : s.render args with
  | ok r => rw [render_ok success]
  | error e =>
    unfold render at success
    split at success
    · cases success
    · next name dynamic =>
      obtain ⟨key, found⟩ := bound name dynamic
      rw [found] at success
      cases success

end PathStep

namespace Path

/-- The path with literal keys. -/
def under (args : Arguments) (p : Path) : Path :=
  ⟨p.steps.map (PathStep.under args)⟩

variable {args : Arguments} {p q : Path}

theorem mapM_render_ok {steps rendered : List PathStep}
    (success : steps.mapM (PathStep.render args) = .ok rendered) :
    rendered = steps.map (PathStep.under args) := by
  induction steps generalizing rendered with
  | nil =>
    cases success
    rfl
  | cons s rest ih =>
    rw [List.mapM_cons] at success
    obtain ⟨first, here, success⟩ := Traced.except_bind_ok_iff.1 success
    obtain ⟨later, there, success⟩ := Traced.except_bind_ok_iff.1 success
    cases success
    rw [List.map_cons, ← ih there, PathStep.render_ok here]

theorem mapM_render_of_bound {steps : List PathStep}
    (bound : ∀ s ∈ steps, s.render args = .ok (s.under args)) :
    steps.mapM (PathStep.render args) = .ok (steps.map (PathStep.under args)) := by
  induction steps with
  | nil => rfl
  | cons s rest ih =>
    have later := ih fun r member => bound r (List.mem_cons_of_mem s member)
    rw [List.mapM_cons, bound s List.mem_cons_self, later]
    rfl

theorem render_ok (success : p.render args = .ok q) : q = p.under args := by
  unfold render at success
  obtain ⟨steps, rendered, success⟩ := Traced.except_bind_ok_iff.1 success
  unfold ofSteps at success
  obtain ⟨_, _, success⟩ := Traced.except_bind_ok_iff.1 success
  cases success
  rw [mapM_render_ok rendered, under]

theorem mem_variableNames {s : PathStep} {name : String} (member : s ∈ p.steps)
    (dynamic : s.key = .placeholder name) : name ∈ p.variableNames := by
  refine List.mem_map.2 ⟨s, List.mem_filter.2 ⟨member, ?_⟩, ?_⟩
  · rw [PathStep.isPlaceholder, dynamic]
    rfl
  · rw [dynamic]
    rfl

theorem checkDepth_ok (start : p.steps ≠ []) (room : p.depth ≤ maxDepth) : p.checkDepth = .ok () := by
  unfold checkDepth
  rw [if_neg (by simpa using start), if_neg (Nat.not_lt.2 room)]

/-- A path that a store accepts is rendered by all arguments that bind its variables. -/
theorem render_of_bound (bound : ∀ name ∈ p.variableNames, ∃ key, args.get? name = some key)
    (start : p.steps ≠ []) (room : p.depth ≤ maxDepth) : p.render args = .ok (p.under args) := by
  have steps : p.steps.mapM (PathStep.render args) = .ok (p.under args).steps :=
    mapM_render_of_bound fun s member => PathStep.render_of_bound fun name dynamic =>
      bound name (mem_variableNames member dynamic)
  have accepted : (p.under args).checkDepth = .ok () := by
    refine checkDepth_ok ?_ ?_
    · simpa [under] using start
    · simpa [under, depth] using room
  unfold render ofSteps
  rw [steps]
  change ((p.under args).checkDepth >>= fun _ => pure (p.under args)) = _
  rw [accepted]
  rfl

/-- The first variable of the path that the arguments do not bind. -/
def unbound? (p : Path) (args : Arguments) : Option String :=
  p.variableNames.find? fun name => (args.get? name).isNone

theorem bound_of_unbound? (found : p.unbound? args = none) :
    ∀ name ∈ p.variableNames, ∃ key, args.get? name = some key := by
  intro name member
  have bound := List.find?_eq_none.1 found name member
  exact Option.ne_none_iff_exists'.1 fun none => bound (Option.isNone_iff_eq_none.2 none)

/-- Steps are rendered in order, so rendering stops at the first variable that is not bound. -/
theorem mapM_render_of_unbound {steps : List PathStep} {name : String}
    (found : (⟨steps⟩ : Path).unbound? args = some name) :
    steps.mapM (PathStep.render args) = .error (.missingArgument name) := by
  induction steps with
  | nil => cases found
  | cons s rest ih =>
    have later (skipped : (⟨s :: rest⟩ : Path).unbound? args = (⟨rest⟩ : Path).unbound? args)
        (rendered : s.render args = .ok (s.under args)) :
        (s :: rest).mapM (PathStep.render args) = .error (.missingArgument name) := by
      rw [List.mapM_cons, rendered, ih (skipped ▸ found)]
      rfl
    obtain ⟨key, type, custom⟩ := s
    cases key with
    | literal own => exact later rfl rfl
    | placeholder own =>
      cases bound : args.get? own with
      | some key =>
        refine later ?_ (PathStep.render_of_bound fun _ dynamic => ⟨key, by cases dynamic; exact bound⟩)
        simp [unbound?, variableNames, PathStep.isPlaceholder, StepKey.isPlaceholder, StepKey.name, bound]
      | none =>
        have first : own = name := by
          simpa [unbound?, variableNames, PathStep.isPlaceholder, StepKey.isPlaceholder, StepKey.name, bound]
            using found
        have missing : PathStep.render args ⟨.placeholder own, type, custom⟩ = .error (.missingArgument own) := by
          unfold PathStep.render
          simp only [bound]
        rw [List.mapM_cons, missing, first]
        rfl

/-- How the path of a store is rendered. -/
theorem render_eq (start : p.steps ≠ []) (room : p.depth ≤ maxDepth) (args : Arguments) :
    p.render args = match p.unbound? args with
      | some name => .error (.missingArgument name)
      | none => .ok (p.under args) := by
  cases found : p.unbound? args with
  | none => exact render_of_bound (bound_of_unbound? found) start room
  | some name =>
    unfold render
    rw [mapM_render_of_unbound found]
    rfl

theorem mapM_render_congr {others : Arguments} {steps : List PathStep}
    (same : ∀ s ∈ steps, s.render others = s.render args) :
    steps.mapM (PathStep.render others) = steps.mapM (PathStep.render args) := by
  induction steps with
  | nil => rfl
  | cons s rest ih =>
    rw [List.mapM_cons, List.mapM_cons, same s List.mem_cons_self,
      ih fun r member => same r (List.mem_cons_of_mem s member)]

/-- Only the variables of a path have to do with how it is rendered. -/
theorem render_congr {others : Arguments} (same : ∀ name ∈ p.variableNames, others.get? name = args.get? name) :
    p.render others = p.render args := by
  have steps : ∀ s ∈ p.steps, s.render others = s.render args := by
    intro s member
    unfold PathStep.render
    split
    · rfl
    · next name dynamic => rw [same name (mem_variableNames member dynamic)]
  unfold render
  rw [mapM_render_congr steps]

/-- The keys along a path; a variable counts with its name. -/
def keys (p : Path) : List String :=
  p.steps.map fun s => s.key.name

/-- Every step has a literal key. -/
def IsLiteral (p : Path) : Prop :=
  ∀ s ∈ p.steps, s.isPlaceholder = false

theorem variableNames_of_isLiteral (literal : p.IsLiteral) : p.variableNames = [] := by
  rw [variableNames, List.filter_eq_nil_iff.2 fun s member => by simp [literal s member]]
  rfl

/-- Where there is nothing to bind, the arguments do not matter. -/
theorem map_keyUnder_of_isLiteral (literal : p.IsLiteral) (args : Arguments) :
    p.steps.map (PathStep.keyUnder args) = p.keys := by
  refine List.map_congr_left fun s member => ?_
  have fixed := literal s member
  cases key : s.key with
  | literal name => exact PathStep.keyUnder_literal key args
  | placeholder name =>
    rw [PathStep.isPlaceholder, key] at fixed
    cases fixed

end Path

end DocSchema
