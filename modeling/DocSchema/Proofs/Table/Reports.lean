import DocSchema.Proofs.Action
import DocSchema.Proofs.Validation.Pruning
import DocSchema.Table.Write

/-!
# Write reports

A report tells the setters of a batch that have something written from those that have not, each group in the
order of the batch, and whether every value is written as it was given.
-/

namespace DocSchema.Table

variable {t : Table} {prepared : PreparedWrite}

/-- Where a setter writes. -/
def location (t : Table) : Setter → Except PathError Path
  | .checked s => (t.resolve s.path s.arguments).map Prod.snd
  | .raw s => t.resolveRaw s

/-- What the store is asked to write for a setter: what is accepted of its value, at its place. -/
def update? (t : Table) (coercion : Coercion) : Setter → Option (Path × Json)
  | .checked s =>
    match t.resolve s.path s.arguments with
    | .ok (d, p) =>
      match (d.validate coercion s.value).result with
      | .ok checked => checked.value.map fun w => (p, w)
      | .error _ => none
    | .error _ => none
  | .raw s =>
    match t.resolveRaw s with
    | .ok p => some (p, s.value.coerce coercion)
    | .error _ => none

/-- What a checked setter has written is what its descriptor accepts of its value. -/
theorem update?_checked_eq_some {coercion : Coercion} {s : FieldSetter} {p : Path} {w : Json}
    (update : t.update? coercion (.checked s) = some (p, w)) :
    ∃ d ws, t.resolve s.path s.arguments = .ok (d, p) ∧
      (d.validate coercion s.value).result = .ok ⟨some w, ws⟩ := by
  unfold update? at update
  dsimp only at update
  split at update
  · next d q resolved =>
    split at update
    · next checked validated =>
      obtain ⟨value, ws⟩ := checked
      obtain ⟨v, rfl, ⟨⟩⟩ := Option.map_eq_some_iff.1 update
      exact ⟨d, ws, resolved, validated⟩
    · cases update
  · cases update

/-- The store is asked to write the value of the setter as it was given, up to its numbers. -/
def WritesWhole (t : Table) (coercion : Coercion) (s : Setter) : Prop :=
  ∃ p, t.location s = .ok p ∧ t.update? coercion s = some (p, s.value.coerce coercion)

/-- A report tells the setters that have something written from those that have not. -/
structure Reports (t : Table) (coercion : Coercion) (setters : List Setter) (prepared : PreparedWrite) : Prop where
  updates : prepared.updates = setters.filterMap (t.update? coercion)
  applied : prepared.report.applied =
    (setters.filter fun s => (t.update? coercion s).isSome).map Setter.path
  rejected : prepared.report.rejected =
    (setters.filter fun s => (t.update? coercion s).isNone).map Setter.path
  complete : prepared.report.isComplete = true ↔ ∀ s ∈ setters, t.WritesWhole coercion s

/-- A setter that has something written loses nothing of its value exactly if there is no warning about it. -/
theorem reports_of_prepare {coercion : Coercion} {s : Setter}
    (ready : (t.prepare coercion s).result = .ok prepared) : t.Reports coercion [s] prepared := by
  cases s with
  | checked s =>
    unfold prepare at ready
    obtain ⟨⟨d, p⟩, resolved, ready⟩ := Traced.bind_ok_iff.1 ready
    obtain ⟨⟨value, ws⟩, validated, ready⟩ := Traced.bind_ok_iff.1 ready
    have resolved := eq_ok_of_mapError resolved
    have validated := eq_ok_of_mapError validated
    have located : t.location (.checked s) = .ok p := by
      simp only [location, resolved, Except.map]
    have update : t.update? coercion (.checked s) = value.map fun w => (p, w) := by
      simp only [update?, resolved, validated]
    cases value with
    | none =>
      cases ready
      refine ⟨?_, ?_, ?_, ?_⟩
      all_goals simp [update, WritesWhole, WriteReport.isComplete, Setter.path]
    | some w =>
      cases ready
      -- A warning stands for an entry that is gone, so without any the value is whole.
      rw [d.validate_result] at validated
      have silent := Validator.check_silent_iff _ _ _ validated
      refine ⟨?_, ?_, ?_, ?_⟩
      all_goals simp [update, located, WritesWhole, WriteReport.isComplete, silent, Setter.path, Setter.value]
  | raw s =>
    unfold prepare at ready
    obtain ⟨p, resolved, ready⟩ := Traced.bind_ok_iff.1 ready
    have resolved := eq_ok_of_mapError resolved
    cases ready
    have located : t.location (.raw s) = .ok p := resolved
    have update : t.update? coercion (.raw s) = some (p, s.value.coerce coercion) := by
      simp only [update?, resolved]
    refine ⟨?_, ?_, ?_, ?_⟩
    all_goals simp [update, located, WritesWhole, WriteReport.isComplete, Setter.path, Setter.value]

theorem isComplete_append (a b : WriteReport) :
    (a.append b).isComplete = true ↔ a.isComplete = true ∧ b.isComplete = true := by
  simp only [WriteReport.isComplete, WriteReport.append, Bool.and_eq_true, List.isEmpty_iff,
    List.append_eq_nil_iff]
  exact and_and_and_comm

theorem Reports.cons {coercion : Coercion} {s : Setter} {setters : List Setter} {first others : PreparedWrite}
    (here : t.Reports coercion [s] first) (later : t.Reports coercion setters others) :
    t.Reports coercion (s :: setters) ⟨first.updates ++ others.updates, first.report.append others.report⟩ := by
  rw [← List.singleton_append]
  refine ⟨?_, ?_, ?_, ?_⟩
  · rw [List.filterMap_append, here.updates, later.updates]
  · rw [List.filter_append, List.map_append, WriteReport.append, here.applied, later.applied]
  · rw [List.filter_append, List.map_append, WriteReport.append, here.rejected, later.rejected]
  · rw [isComplete_append, here.complete, later.complete, List.forall_mem_append]

/-- Every setter of a batch is reported as it is when it is alone. -/
theorem reports_of_prepareAll {coercion : Coercion} {setters : List Setter}
    (ready : (t.prepareAll coercion setters).result = .ok prepared) : t.Reports coercion setters prepared := by
  induction setters generalizing prepared with
  | nil =>
    cases ready
    exact ⟨rfl, rfl, rfl, iff_of_true rfl nofun⟩
  | cons s rest ih =>
    unfold prepareAll at ready
    obtain ⟨first, here, ready⟩ := Traced.bind_ok_iff.1 ready
    obtain ⟨others, later, ⟨⟩⟩ := Traced.bind_ok_iff.1 ready
    exact (reports_of_prepare here).cons (ih later)

end DocSchema.Table
