import DocSchema.Proofs.Schema.Declarations
import DocSchema.Proofs.Schema.Strictness

/-!
# When a compilation ends well

Whether a compilation ends well shows in its walk: the walk has to end well, no two places that it notes contend for
a path text, and a strict compilation must not come to a place that is too deep. In what order the places are noted
does not matter to that.
-/

namespace DocSchema

namespace Draft

variable {strict : Bool} {draft : Draft} {d : FieldDescriptor} {ds : List FieldDescriptor}

/-- A place can be entered that is not registered yet, unless it is too deep for a strict run. -/
theorem enter_ok (fresh : d.path.depth ≤ Path.maxDepth → draft.registry.get? d.pathText = none)
    (shallow : strict = true → d.path.depth ≤ Path.maxDepth) : ∃ next, (draft.enter strict d).result = .ok next := by
  by_cases deep : Path.maxDepth < d.path.depth
  · cases strict with
    | true => exact absurd (shallow rfl) (Nat.not_le.2 deep)
    | false => exact ⟨_, (enter_of_deep draft deep).1⟩
  · have absent := fresh (Nat.not_lt.1 deep)
    refine ⟨draft.register d, ?_⟩
    unfold enter
    rw [if_neg deep, if_neg (by simp [SortedMap.contains, absent])]
    rfl

/-- Places can be entered that are not registered yet and do not contend for a path text. -/
theorem enterAll_ok (fresh : ∀ d ∈ ds, d.path.depth ≤ Path.maxDepth → draft.registry.get? d.pathText = none)
    (apart : ds.Pairwise Apart) (shallow : strict = true → ∀ d ∈ ds, d.path.depth ≤ Path.maxDepth) :
    ∃ final, (draft.enterAll strict ds).result = .ok final := by
  induction ds generalizing draft with
  | nil => exact ⟨draft, rfl⟩
  | cons d rest ih =>
    obtain ⟨others, apart⟩ := List.pairwise_cons.1 apart
    obtain ⟨next, entered⟩ := enter_ok (fresh d List.mem_cons_self) fun mode => shallow mode d List.mem_cons_self
    have later : ∀ e ∈ rest, e.path.depth ≤ Path.maxDepth → next.registry.get? e.pathText = none := by
      intro e member room
      refine Option.eq_none_iff_forall_ne_some.2 fun found held => ?_
      rcases (get?_enter entered e.pathText found).1 held with before | ⟨-, same, here⟩
      · rw [fresh e (List.mem_cons_of_mem d member) room] at before
        cases before
      · exact others e member here room same.symm
    obtain ⟨final, ended⟩ := ih later apart fun mode e member => shallow mode e (List.mem_cons_of_mem d member)
    exact ⟨final, Traced.bind_ok_iff.2 ⟨next, entered, ended⟩⟩

end Draft

/-- Two paths do not contend for one text, unless one of them is too deep. -/
def Path.Apart (p q : Path) : Prop :=
  p.depth ≤ maxDepth → q.depth ≤ maxDepth → p.text ≠ q.text

theorem Path.Apart.symm {p q : Path} (apart : p.Apart q) : q.Apart p :=
  fun room otherRoom => (apart otherRoom room).symm

/-- The paths of the places that a walk notes, in order. -/
def Walk.paths {α : Type} (x : Walk α) : List Path :=
  x.notes.map FieldDescriptor.path

/-- Whether places contend for a path text shows in their paths. -/
theorem Walk.pairwise_apart_iff {α : Type} {x : Walk α} : x.notes.Pairwise Draft.Apart ↔
    x.paths.Pairwise Path.Apart := by
  rw [paths, List.pairwise_map]
  rfl

namespace Compiler

variable {c : Compiler} {table : String} {schema : ObjectSchema} {base : Path}

/-- A compilation ends well if its walk does, if the places that it notes do not contend for a path text, and, if the
depth is strict, none of them is too deep. -/
theorem compileAt_ok_iff : (∃ compiled, (c.compileAt table schema base).result = .ok compiled) ↔
    let walk := Walk.ofSchema table c.maxNestedDepth schema base
    (∃ fields, walk.result = .ok fields) ∧ walk.notes.Pairwise Draft.Apart ∧
      (c.strictDepth = true → ∀ d ∈ walk.notes, d.path.depth ≤ Path.maxDepth) := by
  constructor
  · rintro ⟨compiled, success⟩
    obtain ⟨draft, entered, walked, -⟩ := compileAt_ok success
    exact ⟨⟨_, walked⟩, (Draft.apart_of_enterAll entered).2,
      fun strict d noted => shallow_of_strict success strict noted⟩
  · rintro ⟨⟨fields, walked⟩, apart, shallow⟩
    have fresh : ∀ d ∈ (Walk.ofSchema table c.maxNestedDepth schema base).notes,
        d.path.depth ≤ Path.maxDepth → Draft.empty.registry.get? d.pathText = none := fun _ _ _ => rfl
    obtain ⟨draft, entered⟩ := Draft.enterAll_ok fresh apart shallow
    rw [compileAt_result]
    simp only [entered, walked]
    exact ⟨_, rfl⟩

section Ends

variable {compiled : CompiledSchema} (success : (c.compileAt table schema base).result = .ok compiled)
include success

/-- Registered are the texts of the noted paths, as far as they are not too deep. -/
theorem mem_registry_names_iff (text : String) : text ∈ compiled.registry.names ↔
    ∃ p ∈ (Walk.ofSchema table c.maxNestedDepth schema base).paths, p.depth ≤ Path.maxDepth ∧ p.text = text := by
  obtain ⟨draft, entered, -, shape⟩ := compileAt_ok success
  rw [shape]
  have registered := Draft.get?_enterAll entered
  constructor
  · intro named
    obtain ⟨⟨_, d⟩, entry, rfl⟩ := List.mem_map.1 named
    rcases (registered _ d).1 (SortedMap.mem_entries_iff.1 entry) with before | ⟨noted, text, room⟩
    · cases before
    · exact ⟨d.path, List.mem_map_of_mem noted, room, text.symm⟩
  · rintro ⟨_, noted, room, rfl⟩
    obtain ⟨d, member, rfl⟩ := List.mem_map.1 noted
    have entry := SortedMap.mem_entries_iff.2 ((registered d.pathText d).2 (.inr ⟨member, rfl, room⟩))
    exact List.mem_map.2 ⟨_, entry, rfl⟩

/-- Skipped are the noted paths that are too deep. -/
theorem skipped_eq : compiled.skipped =
    ((Walk.ofSchema table c.maxNestedDepth schema base).paths.filter fun p => Path.maxDepth < p.depth).map
      fun p => ⟨p.text, p.depth⟩ := by
  obtain ⟨draft, entered, -, shape⟩ := compileAt_ok success
  rw [shape, Walk.paths, List.filter_map, List.map_map]
  exact Draft.skipped_enterAll entered

end Ends

end Compiler

end DocSchema
