import DocSchema.Proofs.Action
import DocSchema.Proofs.Schema.Registry

/-!
# Strict and lenient compilation

Both compilations walk a schema alike and enter the same places. They part at the first place that is too deep:
the lenient one skips it and goes on, the strict one ends there. So a strict compilation is a lenient one that
skips nothing, and otherwise it fails with the first path that the lenient one skips.
-/

namespace DocSchema

namespace SkippedPath

/-- Why a strict compilation does not go on where the path is skipped. -/
def error (p : SkippedPath) : SchemaError :=
  .pathTooDeep p.path p.depth

end SkippedPath

namespace Draft

variable {draft final : Draft} {d : FieldDescriptor} {ds : List FieldDescriptor}

/-- How a strict run ends whose lenient twin ends well: it fails with the first path that is skipped. -/
def strictly {α : Type} (a : α) : List SkippedPath → Except SchemaError α
  | [] => .ok a
  | p :: _ => .error p.error

theorem enter_of_deep (draft : Draft) (deep : Path.maxDepth < d.path.depth) :
    (draft.enter false d).result = .ok (draft.skip d) ∧
      (draft.enter true d).result = .error (SkippedPath.error ⟨d.pathText, d.path.depth⟩) := by
  unfold enter
  rw [if_pos deep, if_pos deep]
  exact ⟨rfl, rfl⟩

theorem enter_of_room (room : ¬ Path.maxDepth < d.path.depth) : draft.enter true d = draft.enter false d := by
  unfold enter
  rw [if_neg room, if_neg room]

/-- A place that is not too deep is registered, or refused as a duplicate; nothing is skipped. -/
theorem skipped_enter_of_room {strict : Bool} {next : Draft} (room : ¬ Path.maxDepth < d.path.depth)
    (success : (draft.enter strict d).result = .ok next) : next.skipped = draft.skipped := by
  unfold enter at success
  rw [if_neg room] at success
  split at success
  · cases success
  · cases success
    rfl

/-- A run that ends well has skipped what is too deep, in order. -/
theorem skipped_enterAll {strict : Bool} (success : (draft.enterAll strict ds).result = .ok final) :
    final.skipped = draft.skipped ++
      (ds.filter fun d => Path.maxDepth < d.path.depth).map fun d => ⟨d.pathText, d.path.depth⟩ := by
  induction ds generalizing draft with
  | nil =>
    cases success
    exact (List.append_nil _).symm
  | cons d rest ih =>
    rw [enterAll] at success
    obtain ⟨next, entered, success⟩ := Traced.bind_ok_iff.1 success
    by_cases deep : Path.maxDepth < d.path.depth
    · cases strict with
      | true =>
        rw [(enter_of_deep draft deep).2] at entered
        cases entered
      | false =>
        rw [(enter_of_deep draft deep).1] at entered
        cases entered
        rw [ih success, skip, List.append_assoc]
        simp [deep]
    · rw [ih success, skipped_enter_of_room deep entered]
      simp [deep]

/-- A lenient run adds to the skipped paths, and its strict twin ends at the first one that is added. -/
theorem strictly_enterAll (success : (draft.enterAll false ds).result = .ok final) :
    ∃ later, final.skipped = draft.skipped ++ later ∧
      (draft.enterAll true ds).result = strictly final later := by
  induction ds generalizing draft with
  | nil =>
    cases success
    exact ⟨[], (List.append_nil _).symm, rfl⟩
  | cons d rest ih =>
    rw [enterAll] at success
    obtain ⟨next, entered, success⟩ := Traced.bind_ok_iff.1 success
    obtain ⟨later, skipped, strict⟩ := ih success
    by_cases deep : Path.maxDepth < d.path.depth
    · obtain ⟨lenient, refused⟩ := enter_of_deep draft deep
      rw [lenient] at entered
      cases entered
      refine ⟨⟨d.pathText, d.path.depth⟩ :: later, ?_, ?_⟩
      · rw [skipped, skip, List.append_assoc, List.singleton_append]
      · rw [enterAll]
        exact Traced.bind_error_iff.2 (.inl refused)
    · refine ⟨later, skipped_enter_of_room deep entered ▸ skipped, ?_⟩
      rw [enterAll, enter_of_room deep, Traced.result_bind, entered]
      exact strict

/-- Where a lenient run fails, its strict twin fails alike or has failed before at a skipped path. -/
theorem enterAll_fails {e : SchemaError} (failure : (draft.enterAll false ds).result = .error e) :
    (draft.enterAll true ds).result = .error e ∨
      ∃ p : SkippedPath, (draft.enterAll true ds).result = .error p.error := by
  induction ds generalizing draft with
  | nil => cases failure
  | cons d rest ih =>
    rw [enterAll] at failure ⊢
    by_cases deep : Path.maxDepth < d.path.depth
    · have refused := (enter_of_deep draft deep).2
      exact .inr ⟨_, Traced.bind_error_iff.2 (.inl refused)⟩
    · rw [enter_of_room deep]
      rcases Traced.bind_error_iff.1 failure with duplicate | ⟨next, entered, failure⟩
      · exact .inl (Traced.bind_error_iff.2 (.inl duplicate))
      · rcases ih failure with same | ⟨p, skipped⟩
        · exact .inl (Traced.bind_error_iff.2 (.inr ⟨next, entered, same⟩))
        · exact .inr ⟨p, Traced.bind_error_iff.2 (.inr ⟨next, entered, skipped⟩)⟩

end Draft

namespace Compiler

/-- A compilation ends as entering its places ends, and then as its walk ends. -/
theorem compileAt_result (c : Compiler) (table : String) (schema : ObjectSchema) (base : Path) :
    (c.compileAt table schema base).result = (do
      let walk := Walk.ofSchema table c.maxNestedDepth schema base
      let draft ← (Draft.empty.enterAll c.strictDepth walk.notes).result
      let fields ← walk.result
      return ⟨table, schema, draft.registry, fields, draft.skipped⟩) := by
  simp only [compileAt, Traced.result_bind]
  rfl

section Ends

variable {levels : Nat} {table : String} {schema : ObjectSchema} {base : Path}

/-- Where the lenient compilation ends well, the strict one ends at the first path that was skipped. -/
theorem strictly_compileAt {compiled : CompiledSchema}
    (success : (Compiler.compileAt ⟨levels, false⟩ table schema base).result = .ok compiled) :
    (Compiler.compileAt ⟨levels, true⟩ table schema base).result =
      Draft.strictly compiled compiled.skipped := by
  obtain ⟨draft, entered, walked, shape⟩ := compileAt_ok success
  obtain ⟨later, skipped, strict⟩ := Draft.strictly_enterAll entered
  have same : compiled.skipped = later := (congrArg CompiledSchema.skipped shape).trans skipped
  rw [compileAt_result]
  dsimp only at entered walked strict ⊢
  rw [strict, same]
  cases later with
  | nil =>
    rw [walked, shape]
    rfl
  | cons p later => rfl

/-- Where the lenient compilation fails, it fails to enter the places of its walk, or the walk itself fails. -/
theorem compileAt_fails {e : SchemaError}
    (failure : (Compiler.compileAt ⟨levels, false⟩ table schema base).result = .error e) :
    (Compiler.compileAt ⟨levels, true⟩ table schema base).result = .error e ∨
      ∃ p : SkippedPath, (Compiler.compileAt ⟨levels, true⟩ table schema base).result = .error p.error := by
  rw [compileAt_result] at failure ⊢
  dsimp only at failure ⊢
  cases entered : (Draft.empty.enterAll false (Walk.ofSchema table levels schema base).notes).result with
  | error fault =>
    rw [entered] at failure
    cases failure
    rcases Draft.enterAll_fails entered with same | ⟨p, tooDeep⟩
    · rw [same]
      exact .inl rfl
    · rw [tooDeep]
      exact .inr ⟨p, rfl⟩
  | ok draft =>
    obtain ⟨later, -, strict⟩ := Draft.strictly_enterAll entered
    rw [entered] at failure
    rw [strict]
    cases later with
    | nil => exact .inl failure
    | cons p later => exact .inr ⟨p, rfl⟩

end Ends

/-- Compiling strictly comes to compiling leniently, as long as nothing is skipped. Otherwise a strict compilation
fails with the first path that the lenient one skips, and where the lenient one fails, the strict one fails alike
or with a path that is too deep. -/
theorem strict_agrees_with_lenient (levels : Nat) (table : String) (schema : ObjectSchema) (base : Path) :
    let lenient := (Compiler.compileAt ⟨levels, false⟩ table schema base).result
    let strict := (Compiler.compileAt ⟨levels, true⟩ table schema base).result
    (∀ compiled, lenient = .ok compiled → compiled.skipped = [] → strict = .ok compiled) ∧
    (∀ compiled p later, lenient = .ok compiled → compiled.skipped = p :: later →
      strict = .error (.pathTooDeep p.path p.depth)) ∧
    (∀ e, lenient = .error e → strict = .error e ∨
      ∃ path depth, strict = .error (.pathTooDeep path depth)) ∧
    ∀ compiled, strict = .ok compiled → lenient = .ok compiled ∧ compiled.skipped = [] := by
  intro lenient strict
  refine ⟨?_, ?_, ?_, ?_⟩
  · intro compiled ended nothing
    have ends : strict = _ := strictly_compileAt ended
    rw [ends, nothing]
    rfl
  · intro compiled p later ended skipped
    have ends : strict = _ := strictly_compileAt ended
    rw [ends, skipped]
    rfl
  · intro e failed
    refine (compileAt_fails failed).imp_right ?_
    rintro ⟨p, tooDeep⟩
    exact ⟨p.path, p.depth, tooDeep⟩
  · intro compiled ended
    cases outcome : lenient with
    | error e =>
      rcases compileAt_fails outcome with same | ⟨p, tooDeep⟩
      · cases ended.symm.trans same
      · cases ended.symm.trans tooDeep
    | ok other =>
      have ends : strict = _ := strictly_compileAt outcome
      rw [ended] at ends
      cases skipped : other.skipped with
      | nil =>
        rw [skipped] at ends
        cases ends
        exact ⟨rfl, skipped⟩
      | cons p later =>
        rw [skipped] at ends
        cases ends

/-- A node with children of its own kind, on as many levels as a compiler allows. -/
def chainSchema : ObjectSchema :=
  ⟨"Node", none, [{ Field.plain "next" (.dict .string .selfRef) with keyName := some "next{i}" }]⟩

/-- Two fields under one name. -/
def twiceSchema : ObjectSchema :=
  ⟨"Twice", none, [Field.plain "name" .string, Field.plain "name" .string]⟩

/-- A path below which there is room for one more step. -/
def deepBase : Path :=
  ⟨List.replicate 31 (PathStep.literal "x" .map)⟩

/-- A chain of two levels is compiled alike at the root. Far below it the collection still has room, and its first
item is the first path that is skipped. A field that is declared twice is refused by both compilations. -/
theorem chainSchema_strict_agrees :
    (∃ compiled, (Compiler.compileAt ⟨2, false⟩ "nodes" chainSchema Path.root).result = .ok compiled ∧
      compiled.skipped = [] ∧
      (Compiler.compileAt ⟨2, true⟩ "nodes" chainSchema Path.root).result = .ok compiled ∧
      (Compiler.compileAt ⟨2, false⟩ "nodes" chainSchema Path.root).result = .ok compiled) ∧
    (∃ compiled p later, (Compiler.compileAt ⟨2, false⟩ "nodes" chainSchema deepBase).result = .ok compiled ∧
      compiled.skipped = p :: later ∧ p.depth = 33 ∧
      (Compiler.compileAt ⟨2, true⟩ "nodes" chainSchema deepBase).result =
        .error (.pathTooDeep p.path p.depth)) ∧
    (Compiler.compileAt ⟨2, false⟩ "names" twiceSchema Path.root).result = .error (.duplicatePath "name") ∧
    ((Compiler.compileAt ⟨2, true⟩ "names" twiceSchema Path.root).result = .error (.duplicatePath "name") ∨
      ∃ path depth, (Compiler.compileAt ⟨2, true⟩ "names" twiceSchema Path.root).result =
        .error (.pathTooDeep path depth)) := by
  have short : (Compiler.compileAt ⟨2, false⟩ "nodes" chainSchema Path.root).result.toOption.any
      (fun compiled => decide (compiled.skipped = [])) = true := by
    decide
  have long : (Compiler.compileAt ⟨2, false⟩ "nodes" chainSchema deepBase).result.toOption.any
      (fun compiled => decide (compiled.skipped.map SkippedPath.depth = [33])) = true := by
    decide
  have twice : (Compiler.compileAt ⟨2, false⟩ "names" twiceSchema Path.root).result =
      .error (.duplicatePath "name") := by
    rfl
  obtain ⟨compiled, ended, nothing⟩ := exists_eq_ok_of_any short
  obtain ⟨far, endedFar, tooDeep⟩ := exists_eq_ok_of_any long
  obtain ⟨p, later, skipped, depth, -⟩ := List.map_eq_cons_iff.1 (of_decide_eq_true tooDeep)
  have nothing : compiled.skipped = [] := of_decide_eq_true nothing
  obtain ⟨same, -, -, back⟩ := strict_agrees_with_lenient 2 "nodes" chainSchema Path.root
  have strict := same compiled ended nothing
  have refused := (strict_agrees_with_lenient 2 "nodes" chainSchema deepBase).2.1 far p later endedFar skipped
  have alike := (strict_agrees_with_lenient 2 "names" twiceSchema Path.root).2.2.1 _ twice
  exact ⟨⟨compiled, ended, nothing, strict, (back compiled strict).1⟩,
    ⟨far, p, later, endedFar, skipped, depth, refused⟩, twice, alike⟩

end Compiler

end DocSchema
