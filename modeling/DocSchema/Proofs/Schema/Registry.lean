import DocSchema.Proofs.Schema.Coverage
import DocSchema.Schema.Compiler

/-!
# The registry of a compiled schema

The places of a walk are entered one after the other. A compilation that skips what is too deep registers
exactly the declared places whose paths a store accepts, each under its path text and no path twice.
-/

namespace DocSchema

namespace Draft

/-- Entering one place adds it under its path text, unless it is too deep. -/
theorem get?_enter {strict : Bool} {draft next : Draft} {d : FieldDescriptor}
    (success : (draft.enter strict d).result = .ok next) (text : String) (e : FieldDescriptor) :
    next.registry.get? text = some e ↔
      draft.registry.get? text = some e ∨
        e = d ∧ text = d.pathText ∧ d.path.depth ≤ Path.maxDepth := by
  unfold enter at success
  split at success
  · next deep =>
    cases strict with
    | true => cases success
    | false =>
      cases success
      have tooDeep : ¬ d.path.depth ≤ Path.maxDepth := Nat.not_le.2 deep
      simp [skip, tooDeep]
  · next room =>
    have room : d.path.depth ≤ Path.maxDepth := Nat.not_lt.1 room
    split at success
    · cases success
    · next new =>
      cases success
      have absent : draft.registry.get? d.pathText = none := by
        simpa [SortedMap.contains] using new
      by_cases same : d.pathText = text
      · subst same
        simp [register, absent, room, eq_comm]
      · have other : text ≠ d.pathText := fun eq => same eq.symm
        simp [register, SortedMap.get?_insert_of_ne _ same, other]

/-- Entering places one after the other adds those that are not too deep. -/
theorem get?_enterAll {strict : Bool} {draft final : Draft} {ds : List FieldDescriptor}
    (success : (draft.enterAll strict ds).result = .ok final) (text : String) (e : FieldDescriptor) :
    final.registry.get? text = some e ↔
      draft.registry.get? text = some e ∨
        e ∈ ds ∧ text = e.pathText ∧ e.path.depth ≤ Path.maxDepth := by
  induction ds generalizing draft with
  | nil =>
    cases success
    simp
  | cons d rest ih =>
    rw [enterAll] at success
    obtain ⟨next, entered, success⟩ := Traced.bind_ok_iff.1 success
    rw [ih success, get?_enter entered, List.mem_cons]
    constructor
    · intro held
      rcases held with (found | ⟨rfl, text, room⟩) | ⟨member, text, room⟩
      · exact .inl found
      · exact .inr ⟨.inl rfl, text, room⟩
      · exact .inr ⟨.inr member, text, room⟩
    · intro held
      rcases held with found | ⟨rfl | member, text, room⟩
      · exact .inl (.inl found)
      · exact .inl (.inr ⟨rfl, text, room⟩)
      · exact .inr ⟨member, text, room⟩

end Draft

namespace Compiler

variable {c : Compiler} {table : String} {schema : ObjectSchema} {base : Path} {compiled : CompiledSchema}

/-- A compilation that ends well enters the places of a walk that ends well. -/
theorem compileAt_ok (success : (c.compileAt table schema base).result = .ok compiled) :
    ∃ draft, ((Draft.empty.enterAll c.strictDepth
        (Walk.ofSchema table c.maxNestedDepth schema base).notes).result = .ok draft) ∧
      (Walk.ofSchema table c.maxNestedDepth schema base).result = .ok compiled.fields ∧
      compiled = ⟨table, schema, draft.registry, compiled.fields, draft.skipped⟩ := by
  unfold compileAt at success
  obtain ⟨_, _, success⟩ := Traced.bind_ok_iff.1 success
  obtain ⟨draft, entered, success⟩ := Traced.bind_ok_iff.1 success
  obtain ⟨fields, walked, success⟩ := Traced.bind_ok_iff.1 success
  obtain ⟨_, _, success⟩ := Traced.bind_ok_iff.1 success
  cases success
  exact ⟨draft, entered, walked, rfl⟩

/-- What is registered under a path text. A compilation that ends well in spite of being strict has met no place
that is too deep. -/
theorem get?_registry_iff_isPlace {strict : Bool} (mode : c.strictDepth = strict)
    (success : (c.compileAt table schema base).result = .ok compiled) (text : String) (d : FieldDescriptor) :
    compiled.registry.get? text = some d ↔
      IsPlace table c.maxNestedDepth schema base d ∧ text = d.pathText ∧ d.path.depth ≤ Path.maxDepth := by
  obtain ⟨draft, entered, walked, shape⟩ := compileAt_ok success
  rw [mode] at entered
  rw [shape]
  change draft.registry.get? text = some d ↔ _
  rw [Draft.get?_enterAll entered]
  constructor
  · intro entered
    rcases entered with found | ⟨noted, text, room⟩
    · cases found
    · exact ⟨Walk.isPlace_of_noted noted, text, room⟩
  · intro declared
    obtain ⟨place, text, room⟩ := declared
    have noted := Walk.noted_of_isPlace walked place room
    exact .inr ⟨noted, text, room⟩

/-- The entries of the registry are the places that a store accepts, under the texts of their paths. -/
theorem mem_registry_entries_iff (success : (c.compileAt table schema base).result = .ok compiled) {text : String}
    {d : FieldDescriptor} : (text, d) ∈ compiled.registry.entries ↔
      IsPlace table c.maxNestedDepth schema base d ∧ text = d.pathText ∧ d.path.depth ≤ Path.maxDepth := by
  rw [SortedMap.mem_entries_iff]
  exact get?_registry_iff_isPlace rfl success text d

theorem mem_registry_values_iff (success : (c.compileAt table schema base).result = .ok compiled)
    {d : FieldDescriptor} : d ∈ compiled.registry.values ↔
      IsPlace table c.maxNestedDepth schema base d ∧ d.path.depth ≤ Path.maxDepth := by
  constructor
  · intro member
    obtain ⟨⟨text, _⟩, entry, rfl⟩ := List.mem_map.1 member
    obtain ⟨place, -, room⟩ := (mem_registry_entries_iff success).1 entry
    exact ⟨place, room⟩
  · rintro ⟨place, room⟩
    exact List.mem_map.2 ⟨_, (mem_registry_entries_iff success).2 ⟨place, rfl, room⟩, rfl⟩

/-- If every entry lies under its own path text, no path is registered twice. -/
theorem registry_paths_nodup (own : ∀ text d, (text, d) ∈ compiled.registry.entries → text = d.pathText) :
    (compiled.registry.values.map FieldDescriptor.path).Nodup := by
  have sorted := compiled.registry.sorted
  rw [SortedMap.values, List.map_map, List.Nodup, List.pairwise_map]
  refine sorted.imp_of_mem fun {a b} first second below same => ?_
  rw [own a.1 a.2 first, own b.1 b.2 second, FieldDescriptor.pathText, FieldDescriptor.pathText] at below
  rw [show a.2.path = b.2.path from same] at below
  exact String.lt_irrefl _ below

/-- A compilation that skips what is too deep and ends well registers exactly the declared places whose paths
a store accepts, each as its place describes it and under its path text, and no path twice. -/
theorem registry_holds_places (c : Compiler) (lenient : c.strictDepth = false) (table : String)
    (schema : ObjectSchema) (base : Path) (compiled : CompiledSchema)
    (success : (c.compileAt table schema base).result = .ok compiled) :
    (∀ text d, (text, d) ∈ compiled.registry.entries ↔
      IsPlace table c.maxNestedDepth schema base d ∧ text = d.pathText ∧ d.path.depth ≤ Path.maxDepth) ∧
    (compiled.registry.values.map FieldDescriptor.path).Nodup := by
  have entries : ∀ text d, (text, d) ∈ compiled.registry.entries ↔
      IsPlace table c.maxNestedDepth schema base d ∧ text = d.pathText ∧
        d.path.depth ≤ Path.maxDepth := by
    intro text d
    rw [SortedMap.mem_entries_iff]
    exact get?_registry_iff_isPlace lenient success text d
  exact ⟨entries, registry_paths_nodup fun text d member => ((entries text d).1 member).2.1⟩

/-- A node with a name, with tags, and with children of its own kind on two levels. -/
def treeSchema : ObjectSchema :=
  ⟨"Node", none, [
    ⟨"name", .string, true, none, none, none⟩,
    ⟨"tags", .dict .string .int, false, none, none, none⟩,
    ⟨"children", .dict .string .selfRef, false, some "child{i}", none, some 2⟩]⟩

theorem treeSchema_compiles :
    ∃ compiled, (Compiler.standard.compile "nodes" treeSchema).result = .ok compiled := by
  have ends : (Compiler.standard.compile "nodes" treeSchema).result.isOk = true := by
    decide +kernel
  cases success : (Compiler.standard.compile "nodes" treeSchema).result with
  | error e =>
    rw [success] at ends
    cases ends
  | ok compiled => exact ⟨compiled, rfl⟩

theorem treeSchema_registry_holds_places :
    Compiler.standard.strictDepth = false ∧
    ∃ compiled, (Compiler.standard.compileAt "nodes" treeSchema Path.root).result = .ok compiled ∧
      (∀ text d, (text, d) ∈ compiled.registry.entries ↔
        IsPlace "nodes" Compiler.standard.maxNestedDepth treeSchema Path.root d ∧ text = d.pathText ∧
          d.path.depth ≤ Path.maxDepth) ∧
      (compiled.registry.values.map FieldDescriptor.path).Nodup := by
  obtain ⟨compiled, success⟩ := treeSchema_compiles
  exact ⟨rfl, compiled, success,
    registry_holds_places Compiler.standard rfl "nodes" treeSchema Path.root compiled success⟩

end Compiler

end DocSchema
