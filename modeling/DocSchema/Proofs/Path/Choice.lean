import DocSchema.Proofs.Path.Rendering

/-!
# Keys chosen for the variables of a path

Arguments bind variables by name, so positions with the same variable are rendered alike. Any keys can be chosen for
the positions of a path if no variable occurs twice on it.
-/

namespace DocSchema

namespace PathStep

/-- The step with a key in the place of its variable, if it has one. -/
def keyed (s : PathStep) (key : String) : PathStep :=
  if s.isPlaceholder then s.rendered key else s

theorem isPlaceholder_iff {s : PathStep} : s.isPlaceholder = true ↔ ∃ name, s.key = .placeholder name := by
  obtain ⟨key, type, custom⟩ := s
  cases key <;> simp [isPlaceholder, StepKey.isPlaceholder]

/-- Arguments do to a step what the key does if they bind its variable to the key. -/
theorem under_eq_keyed_iff {s : PathStep} {args : Arguments} {key : String} :
    s.under args = s.keyed key ↔ ∀ name, s.key = .placeholder name → s.keyUnder args = key := by
  obtain ⟨own, type, custom⟩ := s
  cases own with
  | literal name =>
    refine ⟨fun _ _ dynamic => ?_, fun _ => rfl⟩
    cases dynamic
  | placeholder name =>
    constructor
    · intro same _ _
      exact StepKey.literal.inj (congrArg PathStep.key same)
    · intro bound
      exact congrArg (rendered _) (bound name rfl)

end PathStep

namespace Path

/-- The path with the key that is chosen for the position in the place of each variable. -/
def chosen (p : Path) (choice : Nat → String) : Path :=
  ⟨p.steps.mapIdx fun i s => s.keyed (choice i)⟩

/-- The variable stands at a position of the path. -/
def VariableAt (p : Path) (i : Nat) (name : String) : Prop :=
  ∃ s, p.steps[i]? = some s ∧ s.key = .placeholder name

/-- The first position of a variable that stands on the path. -/
def firstAt (p : Path) (name : String) : Nat :=
  p.steps.findIdx fun s => s.key = .placeholder name

/-- Positions with the same variable have the same key. -/
def Agrees (p : Path) (choice : Nat → String) : Prop :=
  ∀ i j name, p.VariableAt i name → p.VariableAt j name → choice i = choice j

/-- Whatever keys are chosen for the positions of the variables, there are arguments that render the path so. -/
def Addressable (p : Path) : Prop :=
  ∀ choice, ∃ args, p.render args = .ok (p.chosen choice)

variable {p : Path} {choice : Nat → String} {args : Arguments}

theorem VariableAt.firstAt {i : Nat} {name : String} (somewhere : p.VariableAt i name) :
    p.VariableAt (p.firstAt name) name := by
  obtain ⟨s, here, dynamic⟩ := somewhere
  have found : p.firstAt name < p.steps.length :=
    List.findIdx_lt_length_of_exists ⟨s, List.mem_of_getElem? here, decide_eq_true dynamic⟩
  exact ⟨_, List.getElem?_eq_getElem found, of_decide_eq_true (List.findIdx_getElem (w := found))⟩

/-- The arguments render the path with the chosen keys. -/
theorem under_eq_chosen_iff :
    p.under args = p.chosen choice ↔ ∀ i s, p.steps[i]? = some s → ∀ name, s.key = .placeholder name →
      s.keyUnder args = choice i := by
  rw [under, chosen, mk.injEq, List.ext_getElem?_iff]
  refine forall_congr' fun i => ?_
  rw [List.getElem?_map, List.getElem?_mapIdx]
  cases p.steps[i]? with
  | none => simp
  | some s => simp [PathStep.under_eq_keyed_iff]

/-- There are arguments that bind each of some variables to its key. -/
theorem exists_arguments (names : List String) (key : String → String) :
    ∃ args : Arguments, ∀ name ∈ names, args.get? name = some (key name) := by
  induction names with
  | nil => exact ⟨∅, List.forall_mem_nil _⟩
  | cons first names ih =>
    obtain ⟨args, bound⟩ := ih
    refine ⟨args.insert first (key first), fun name member => ?_⟩
    by_cases same : first = name
    · rw [same, SortedMap.get?_insert_self]
    · rw [SortedMap.get?_insert_of_ne _ same]
      exact bound name ((List.mem_cons.1 member).resolve_left (Ne.symm same))

/-- Arguments never give different keys to positions with the same variable. -/
theorem agrees_of_render (rendered : p.render args = .ok (p.chosen choice)) : p.Agrees choice := by
  rintro i j name ⟨s, here, dynamic⟩ ⟨r, there, again⟩
  have keys := under_eq_chosen_iff.1 (render_ok rendered).symm
  rw [← keys i s here name dynamic, ← keys j r there name again, PathStep.keyUnder, PathStep.keyUnder, dynamic, again]

/-- The choices of keys for which there are arguments. -/
theorem render_chosen_iff (start : p.steps ≠ []) (room : p.depth ≤ maxDepth) (choice : Nat → String) :
    (∃ args, p.render args = .ok (p.chosen choice)) ↔ p.Agrees choice := by
  constructor
  · rintro ⟨args, rendered⟩
    exact agrees_of_render rendered
  · intro agrees
    -- Each variable gets the key that is chosen for its first position.
    obtain ⟨args, bound⟩ := exists_arguments p.variableNames fun name => choice (p.firstAt name)
    refine ⟨args, ?_⟩
    rw [render_of_bound (fun name member => ⟨_, bound name member⟩) start room]
    refine congrArg Except.ok (under_eq_chosen_iff.2 fun i s here name dynamic => ?_)
    have stands : p.VariableAt i name := ⟨s, here, dynamic⟩
    have key := bound name (mem_variableNames (List.mem_of_getElem? here) dynamic)
    rw [PathStep.keyUnder, dynamic, ← agrees _ _ name stands.firstAt stands]
    exact congrArg (Option.getD · "") key

theorem variableNames_nodup_iff :
    p.variableNames.Nodup ↔ ∀ i j name, p.VariableAt i name → p.VariableAt j name → i = j := by
  rw [variableNames, List.Nodup, List.pairwise_map, List.pairwise_filter, List.pairwise_iff_getElem]
  constructor
  · intro apart i j name here there
    have before : ∀ {i j : Nat}, i < j → p.VariableAt i name → ¬ p.VariableAt j name := by
      rintro i j below ⟨s, here, dynamic⟩ ⟨r, there, again⟩
      obtain ⟨inside, rfl⟩ := List.getElem?_eq_some_iff.1 here
      obtain ⟨insideToo, rfl⟩ := List.getElem?_eq_some_iff.1 there
      refine apart i j inside insideToo below ?_ ?_ ?_
      · exact PathStep.isPlaceholder_iff.2 ⟨name, dynamic⟩
      · exact PathStep.isPlaceholder_iff.2 ⟨name, again⟩
      · rw [dynamic, again]
    rcases Nat.lt_trichotomy i j with below | same | above
    · exact absurd there (before below here)
    · exact same
    · exact absurd here (before above there)
  · intro once i j inside insideToo below dynamic again same
    obtain ⟨name, named⟩ := PathStep.isPlaceholder_iff.1 dynamic
    obtain ⟨other, namedToo⟩ := PathStep.isPlaceholder_iff.1 again
    rw [named, namedToo] at same
    cases same
    exact Nat.ne_of_lt below (once i j name ⟨_, List.getElem?_eq_getElem inside, named⟩
      ⟨_, List.getElem?_eq_getElem insideToo, namedToo⟩)

/-- Any keys can be chosen exactly if no variable occurs twice. -/
theorem addressable_iff (start : p.steps ≠ []) (room : p.depth ≤ maxDepth) :
    p.Addressable ↔ p.variableNames.Nodup := by
  rw [variableNames_nodup_iff]
  constructor
  · intro addressable i j name here there
    have agrees := (render_chosen_iff start room fun k => if k = i then "here" else "elsewhere").1 (addressable _)
    have same : (if i = i then "here" else "elsewhere") = if j = i then "here" else "elsewhere" :=
      agrees i j name here there
    rw [if_pos rfl] at same
    split at same
    · next meet => exact meet.symm
    · exact absurd same (by decide)
  · intro once choice
    refine (render_chosen_iff start room choice).2 fun i j name here there => ?_
    rw [once i j name here there]

end Path

end DocSchema
