import DocSchema.Proofs.Schema.Rebasing
import DocSchema.Proofs.Schema.Spine

/-!
# More levels

An indexed collection without a number of levels of its own is unrolled into as many as the compiler asks for. On more
levels everything is registered that is registered on fewer, and besides that only the items of the levels in between
and what lies below them. A schema that compiles on more levels compiles on fewer, too.
-/

namespace DocSchema

/-- The place lies below the other one. -/
def FieldDescriptor.LiesBelow (d above : FieldDescriptor) : Prop :=
  above.path.steps <+: d.path.steps ∧ above.path.depth < d.path.depth

/-- The items of those levels that only the greater number asks for: their collection is met outside of every unrolled
one and has no number of levels of its own. -/
inductive IsAdded (table : String) (low high : Nat) (schema : ObjectSchema) (base : Path) : FieldDescriptor → Prop
  | level {owner : ObjectSchema} {parent : Path} {f : FieldDecl} {keyType : KeyType} {item : FieldType} {n : Nat}
      (visited : Visited high schema base .outside owner parent) (declared : f ∈ owner.fields)
      (type : f.typeIn owner = .dict keyType item) (indexed : KeyName.isIndexed f.keyVariable = true)
      (free : f.maxNestedDepth = none) (least : low ≤ n) (bound : n < high) :
      IsAdded table low high schema base (f.spine table owner parent item n)

/-! ## Places on more levels -/

section Places

variable {table : String} {low high : Nat} {schema : ObjectSchema} {base : Path} {region : Region}
  {owner : ObjectSchema} {parent : Path} {d e : FieldDescriptor}

/-- Outside of every unrolled collection the same models are met on any number of levels. -/
theorem Visited.of_outside (visited : Visited high schema base region owner parent) (outside : region = .outside) :
    Visited low schema base region owner parent := by
  induction visited with
  | schema => exact .schema
  | object _ declared type ih => exact .object (ih outside) declared type
  | item _ declared type plain ih => exact .item (ih outside) declared type plain
  | level => cases outside

/-- Every model that is met on fewer levels is met on more. -/
theorem Visited.mono (le : low ≤ high) (visited : Visited low schema base region owner parent) :
    Visited high schema base region owner parent := by
  induction visited with
  | schema => exact .schema
  | object _ declared type ih => exact .object ih declared type
  | item _ declared type plain ih => exact .item ih declared type plain
  | @level _ _ _ f _ _ _ declared type indexed bound ih =>
    exact .level ih declared type indexed (Nat.lt_of_lt_of_le bound (f.levels_le le))

theorem IsPlace.mono (le : low ≤ high) (place : IsPlace table low schema base d) :
    IsPlace table high schema base d := by
  cases place with
  | field visited declared => exact .field (visited.mono le) declared
  | item visited declared type plain => exact .item (visited.mono le) declared type plain
  | @level _ _ f _ _ _ visited declared type indexed bound =>
    exact .level (visited.mono le) declared type indexed (Nat.lt_of_lt_of_le bound (f.levels_le le))

theorem IsAdded.isPlace (added : IsAdded table low high schema base e) : IsPlace table high schema base e := by
  cases added with
  | level visited declared type indexed free _ bound =>
    exact .level visited declared type indexed (by rw [free]; exact bound)

/-- The lesser number asks for a level, too, or the item of the level is added. -/
theorem bound_or_isAdded {f : FieldDecl} {keyType : KeyType} {item : FieldType} {n : Nat}
    (visited : Visited high schema base .outside owner parent) (declared : f ∈ owner.fields)
    (type : f.typeIn owner = .dict keyType item) (indexed : KeyName.isIndexed f.keyVariable = true)
    (bound : n < f.maxNestedDepth.getD high) :
    n < f.maxNestedDepth.getD low ∨ IsAdded table low high schema base (f.spine table owner parent item n) := by
  cases own : f.maxNestedDepth with
  | some levels =>
    rw [own] at bound
    exact .inl bound
  | none =>
    rw [own] at bound
    refine (Nat.lt_or_ge n low).imp_right fun least => ?_
    exact .level visited declared type indexed own least bound

/-- A model that is met on more levels is met on fewer, or at an added item or below it. -/
theorem Visited.fewer_or_added (table : String) (low : Nat)
    (visited : Visited high schema base region owner parent) :
    Visited low schema base region owner parent ∨
      ∃ e, IsAdded table low high schema base e ∧ e.path.steps <+: parent.steps := by
  induction visited with
  | schema => exact .inl .schema
  | object _ declared type ih =>
    rcases ih with fewer | ⟨e, added, above⟩
    · exact .inl (.object fewer declared type)
    · exact .inr ⟨e, added, above.trans (List.prefix_append _ _)⟩
  | item _ declared type plain ih =>
    rcases ih with fewer | ⟨e, added, above⟩
    · exact .inl (.item fewer declared type plain)
    · exact .inr ⟨e, added, (above.trans (List.prefix_append _ _)).trans (List.prefix_append _ _)⟩
  | level visited declared type indexed bound ih =>
    rcases bound_or_isAdded visited declared type indexed bound with fewer | added
    · exact .inl (.level (visited.of_outside rfl) declared type indexed fewer)
    · exact .inr ⟨_, added, List.prefix_rfl⟩

/-- A child of a path that is at a place or below it lies below the place. -/
theorem FieldDescriptor.liesBelow_of_child {step : PathStep} (above : e.path.steps <+: parent.steps)
    (child : d.path = parent.child step) : d.LiesBelow e := by
  rw [LiesBelow, child, Path.depth_child]
  exact ⟨above.trans (List.prefix_append _ _), Nat.lt_succ_of_le above.length_le⟩

/-- A place on more levels is one on fewer, or an added item, or lies below one. -/
theorem IsPlace.fewer_or_added (low : Nat) (place : IsPlace table high schema base d) :
    IsPlace table low schema base d ∨ ∃ e, IsAdded table low high schema base e ∧ (d = e ∨ d.LiesBelow e) := by
  cases place with
  | field visited declared =>
    rcases visited.fewer_or_added table low with fewer | ⟨e, added, above⟩
    · exact .inl (.field fewer declared)
    · exact .inr ⟨e, added, .inr (FieldDescriptor.liesBelow_of_child above rfl)⟩
  | @item _ owner parent f _ _ visited declared type plain =>
    rcases visited.fewer_or_added table low with fewer | ⟨e, added, above⟩
    · exact .inl (.item fewer declared type plain)
    · have collection : e.path.steps <+: (f.pathIn owner parent).steps := above.trans (List.prefix_append _ _)
      exact .inr ⟨e, added, .inr (FieldDescriptor.liesBelow_of_child collection rfl)⟩
  | level visited declared type indexed bound =>
    rcases bound_or_isAdded visited declared type indexed bound with fewer | added
    · exact .inl (.level (visited.of_outside rfl) declared type indexed fewer)
    · exact .inr ⟨_, added, .inl rfl⟩

end Places

/-! ## Compilations on more levels -/

namespace Compiler

variable {table : String} {schema : ObjectSchema} {base : Path} {more fewer : CompiledSchema}

/-- What compiles on more levels compiles on fewer, since the walk on fewer levels is within the other one. -/
theorem compileAt_of_more {strict : Bool} {low high : Nat} (le : low ≤ high)
    (success : (Compiler.compileAt ⟨high, strict⟩ table schema base).result = .ok more) :
    ∃ fewer, (Compiler.compileAt ⟨low, strict⟩ table schema base).result = .ok fewer := by
  obtain ⟨⟨fields, walked⟩, apart, shallow⟩ := compileAt_ok_iff.1 ⟨more, success⟩
  have within := Walk.ofSchema_within_below le Path.root walked
  rw [Path.below_root, Walk.below_root] at within
  apply compileAt_ok_iff.2
  exact ⟨within.1, apart.sublist within.2, fun mode d noted => shallow mode d (within.2.subset noted)⟩

/-- The top-level fields do not depend on the number of levels. -/
theorem fields_eq_of_levels {c other : Compiler} (first : (c.compileAt table schema base).result = .ok more)
    (second : (other.compileAt table schema base).result = .ok fewer) : fewer.fields = more.fields := by
  by_cases room : base.depth < Path.maxDepth
  · rw [compiled_fields first room, compiled_fields second room]
  · obtain ⟨-, -, walked, -⟩ := compileAt_ok first
    obtain ⟨-, -, otherWalked, -⟩ := compileAt_ok second
    rw [Walk.visitFields_result_of_deep walked room, Walk.visitFields_result_of_deep otherWalked room]

/-- What compiles on a number of levels compiles on every lesser one, too. Each entry on the lesser number is an entry
on the greater one, and the top-level fields are the same. What else is registered on the greater number is the item of
a level that only this number asks for, of an indexed collection without a number of its own, or lies below such an
item, which is registered as well. -/
theorem more_levels_only_add (strict : Bool) (table : String) (schema : ObjectSchema) (base : Path) (low high : Nat)
    (le : low ≤ high) (more : CompiledSchema)
    (success : (Compiler.compileAt ⟨high, strict⟩ table schema base).result = .ok more) :
    ∃ fewer, (Compiler.compileAt ⟨low, strict⟩ table schema base).result = .ok fewer ∧
      (∀ text d, fewer.registry.get? text = some d → more.registry.get? text = some d) ∧
      fewer.fields = more.fields ∧
      ∀ text d, more.registry.get? text = some d → fewer.registry.get? text = none →
        ∃ e, IsAdded table low high schema base e ∧ more.registry.get? e.pathText = some e ∧
          (d = e ∨ d.LiesBelow e) := by
  obtain ⟨fewer, ended⟩ := compileAt_of_more le success
  refine ⟨fewer, ended, ?_, fields_eq_of_levels success ended, ?_⟩
  · intro text d registered
    obtain ⟨place, text, room⟩ := (get?_registry_iff_isPlace rfl ended text d).1 registered
    exact (get?_registry_iff_isPlace rfl success _ d).2 ⟨place.mono le, text, room⟩
  · intro text d registered absent
    obtain ⟨place, text, room⟩ := (get?_registry_iff_isPlace rfl success text d).1 registered
    rcases place.fewer_or_added low with before | ⟨e, added, related⟩
    · rw [(get?_registry_iff_isPlace rfl ended _ d).2 ⟨before, text, room⟩] at absent
      cases absent
    · have fits : e.path.depth ≤ Path.maxDepth := by
        rcases related with rfl | ⟨-, deeper⟩
        · exact room
        · omega
      exact ⟨e, added, (get?_registry_iff_isPlace rfl success _ e).2 ⟨added.isPlace, rfl, fits⟩, related⟩

/-- A chain of two levels has the item of the second level besides what a chain of one level has. -/
theorem chainSchema_second_level_added :
    let second := chainSchema.fields[0].spine "nodes" chainSchema Path.root (.object chainSchema) 1
    1 ≤ 2 ∧ ∃ more, (Compiler.compileAt ⟨2, false⟩ "nodes" chainSchema Path.root).result = .ok more ∧
      more.registry.get? second.pathText = some second ∧
      ∃ fewer, (Compiler.compileAt ⟨1, false⟩ "nodes" chainSchema Path.root).result = .ok fewer ∧
        fewer.registry.size = 3 ∧ fewer.registry.get? second.pathText = none ∧
        (∀ text d, fewer.registry.get? text = some d → more.registry.get? text = some d) ∧
        fewer.fields = more.fields ∧
        ∃ e, IsAdded "nodes" 1 2 chainSchema Path.root e ∧ more.registry.get? e.pathText = some e ∧
          (second = e ∨ second.LiesBelow e) := by
  intro second
  have long : (Compiler.compileAt ⟨2, false⟩ "nodes" chainSchema Path.root).result.isOk = true := by
    decide
  have short : (Compiler.compileAt ⟨1, false⟩ "nodes" chainSchema Path.root).result.toOption.any (fun compiled =>
      decide (compiled.registry.size = 3 ∧ (compiled.registry.get? second.pathText).isNone = true)) = true := by
    decide
  obtain ⟨more, success⟩ := exists_eq_ok_of_isOk long
  obtain ⟨one, endedOne, only⟩ := exists_eq_ok_of_any short
  obtain ⟨size, absent⟩ := of_decide_eq_true only
  obtain ⟨fewer, ended, kept, fields, besides⟩ :=
    more_levels_only_add false "nodes" chainSchema Path.root 1 2 (by decide) more success
  cases endedOne.symm.trans ended
  have absent := Option.isNone_iff_eq_none.1 absent
  have place : IsPlace "nodes" 2 chainSchema Path.root second :=
    .level .schema (List.getElem_mem _) rfl (by decide) (by decide)
  have registered : more.registry.get? second.pathText = some second :=
    (get?_registry_iff_isPlace rfl success _ _).2 ⟨place, rfl, by decide⟩
  exact ⟨by decide, more, success, registered, one, endedOne, size, absent, kept, fields,
    besides _ _ registered absent⟩

end Compiler

end DocSchema
