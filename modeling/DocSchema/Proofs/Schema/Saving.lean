import DocSchema.Proofs.FileTree
import DocSchema.Proofs.Json.Reading
import DocSchema.Proofs.Schema.Form
import DocSchema.Proofs.Schema.Loading
import DocSchema.Proofs.Schema.Typing

/-!
# Saved schemas

The file of a saved schema says the schema, unless the schema is nested more deeply than a text may be or a custom
default is null. The schema loads back if its name makes the path of a schema file in the directory.
-/

namespace DocSchema

open Json (Tree)

/-! ## Settings that a text can say -/

/-- The settings of a field as their types hold them: members of objects are in order, and numbers fit their words. -/
structure Field.SettingsFit (f : FieldDecl) : Prop where
  custom : ∀ v, f.custom = some v → v.Ordered ∧ v.Fits
  maxNestedDepth : ∀ n, f.maxNestedDepth = some n → n < Word.unsignedBound

theorem Model.isExact_iff {schema : ObjectSchema} (fit : ObjectSchema.Throughout schema Field.SettingsFit) :
    schema.IsExact ↔ ObjectSchema.Throughout schema fun f => f.custom ≠ some .null := by
  rw [← FieldType.isExact_object_iff]
  constructor
  · intro exact model held f declared null
    exact ((exact model held f declared).custom _ null).1 rfl
  · intro nonnull model held f declared
    obtain ⟨custom, maxNestedDepth⟩ := fit model held f declared
    refine ⟨fun v given => ⟨?_, (custom v given).1⟩, maxNestedDepth⟩
    rintro rfl
    exact nonnull model held f declared given

/-! ## The text of a schema -/

/-- A declaration fits if its type does. -/
theorem Field.fits_toJson {f : FieldDecl} (settings : f.SettingsFit) (type : ∀ m ∈ f.type.toMembers, m.2.Fits) :
    f.toJson.Fits := by
  rw [f.toJson_eq]
  refine .of_members ?_
  simp only [toMembers, List.forall_mem_append, List.forall_mem_singleton, Assoc.forall_mem_optional]
  refine ⟨⟨⟨⟨⟨.str _, type⟩, .bool _⟩, fun v given => ?_⟩, fun v given => ?_⟩, fun v given => ?_⟩
  · obtain ⟨k, _, rfl⟩ := Option.map_eq_some_iff.1 given
    exact .str k
  · exact (settings.custom v given).2
  · obtain ⟨n, depth, rfl⟩ := Option.map_eq_some_iff.1 given
    have below := settings.maxNestedDepth n depth
    have positive : -(Word.signedBound : Int) ≤ n := by omega
    exact .num ⟨positive, Int.ofNat_lt.2 below⟩

theorem Model.fits_toJson_of_fields {m : ObjectSchema} (fields : ∀ f ∈ m.fields, f.toJson.Fits) : m.toJson.Fits := by
  rw [m.toJson_eq]
  refine .of_members ?_
  simp only [toMembers, List.forall_mem_append, List.forall_mem_singleton, Assoc.forall_mem_optional]
  refine ⟨⟨.str _, fun v given => ?_⟩, .arr ?_⟩
  · obtain ⟨d, _, rfl⟩ := Option.map_eq_some_iff.1 given
    exact .str d
  · rw [FieldType.fieldsToJson_eq, List.forall_mem_map]
    exact fields

theorem FieldType.fits_toMembers {t : FieldType}
    (fit : ∀ model, t.Holds model → ∀ f ∈ model.fields, f.SettingsFit) : ∀ m ∈ t.toMembers, m.2.Fits := by
  induction t using FieldType.induct with
  | list element inside =>
    cases element with
    | none => exact List.forall_mem_singleton.2 (.str _)
    | some e =>
      have part := inside e rfl fun model held => fit model (.element held)
      exact List.forall_mem_cons.2 ⟨.str _, List.forall_mem_singleton.2 (.of_members part)⟩
  | object model inside =>
    have part : model.toJson.Fits := Model.fits_toJson_of_fields fun f declared =>
      Field.fits_toJson (fit model (.here model) f declared)
        (inside f declared fun inner held => fit inner (.field declared held))
    exact List.forall_mem_cons.2 ⟨.str _, List.forall_mem_singleton.2 part⟩
  | dict keyType valueType inside =>
    have part := inside fun model held => fit model (.value held)
    refine List.forall_mem_cons.2 ⟨.str _, List.forall_mem_cons.2 ⟨.str _, ?_⟩⟩
    exact List.forall_mem_singleton.2 (.of_members part)
  | _ => exact List.forall_mem_singleton.2 (.str _)

theorem Model.fits_toJson {schema : ObjectSchema} (fit : ObjectSchema.Throughout schema Field.SettingsFit) :
    schema.toJson.Fits :=
  fits_toJson_of_fields fun f declared => Field.fits_toJson (fit schema (.here schema) f declared)
    (FieldType.fits_toMembers fun model held => fit model (.field declared held))

/-- A schema is nested as its fields are. -/
theorem Model.nesting_toJson (m : ObjectSchema) :
    m.toJson.nesting = (Json.arr (FieldType.fieldsToJson m.fields)).nesting + 1 := by
  rw [m.toJson_eq]
  cases description : m.description <;>
    simp [toMembers, description, Assoc.optional, Json.nesting, Json.memberNesting]

/-- No schema is read of a text that is nested too deeply: its fields are unreadable. -/
theorem Model.ofTree?_treeAt_eq_none {most : Nat} {m : ObjectSchema} (deep : most < m.toJson.nesting) :
    ofTree? (m.toJson.treeAt (some most) 0) = none := by
  rw [nesting_toJson] at deep
  have fields : (Json.treeAt (some most) 1 (.arr (FieldType.fieldsToJson m.fields))).readable = false := by
    rw [Tree.readable, Json.value?_treeAt_eq_none (by rw [Json.nesting]; omega) (by omega)]
    rfl
  rw [m.toJson_eq, Json.treeAt, Json.memberTreesAt_eq, Json.Reader.within_some]
  split
  · have member : Assoc.get? "fields" (m.toMembers.map fun p => (p.1, Json.treeAt (some most) 1 p.2)) =
        some (Json.treeAt (some most) 1 (.arr (FieldType.fieldsToJson m.fields))) := by
      have part : Assoc.get? "fields" m.toMembers = some (.arr (FieldType.fieldsToJson m.fields)) := by
        simp [toMembers, Assoc.get?]
      rw [Assoc.get?_map, part, Option.map_some]
    rw [ofTree?, fieldsReadable, member, Option.all_some, fields, if_neg Bool.false_ne_true]
  · rfl

/-- The file of a schema says the schema if the text is not nested too deeply and no default is null. -/
theorem FileTree.schema?_saved_iff {schema : ObjectSchema} (fit : ObjectSchema.Throughout schema Field.SettingsFit) :
    (FileTree.file schema.toJson.indentedText.toUTF8).schema? = some schema ↔
      schema.toJson.nesting ≤ Json.nestingLimit ∧ ObjectSchema.Throughout schema fun f => f.custom ≠ some .null := by
  have read : (FileTree.file schema.toJson.indentedText.toUTF8).schema? =
      Model.ofTree? (schema.toJson.treeAt (some Json.nestingLimit) 0) := by
    rw [FileTree.schema?, FileTree.text?_file, Option.bind_some, Json.indentedText,
      Json.ofText?_write _ Json.Scan.isBlankLayout_indented (Model.fits_toJson fit), Option.bind_some]
  rw [read, ← Model.isExact_iff fit]
  -- Beyond the limit there are no fields to read; within it the tree is that of the schema, which exactly the exact
  -- schemas read back.
  constructor
  · intro back
    refine ⟨?_, Model.isExact_of_ofTree? back⟩
    by_contra deep
    rw [Model.ofTree?_treeAt_eq_none (Nat.lt_of_not_le deep)] at back
    cases back
  · rintro ⟨shallow, exact⟩
    rw [Json.treeAt_eq_ofJson (by rintro _ ⟨⟩; omega)]
    exact Model.ofTree?_spelled Json.spelling_ofJson exact

namespace Loader

variable {l : Loader} {files written : FileTree} {schema : ObjectSchema} {file : String}

/-! ## Saved files -/

/-- A schema that is saved is written to the place of its path text. -/
theorem save_ok (saved : l.save files schema = (written, .ok file)) :
    file = fileOf schema ∧ ∃ made place, files.makeFolder? l.directory = some made ∧
      made.locate? l.directory file = some place ∧
        made.write? schema.toJson.indentedText.toUTF8 place = some written := by
  unfold save at saved
  dsimp only at saved
  split at saved
  · cases saved
  · split at saved
    · cases saved
    · next made folder =>
      split at saved
      · next result written_at =>
        cases saved
        obtain ⟨place, located, writes⟩ := Option.bind_eq_some_iff.1 written_at
        exact ⟨rfl, made, place, folder, located, writes⟩
      · cases saved

/-- An empty directory holds afterwards the file of the saved schema, if its path text leads to a place there. -/
theorem find?_save (empty : files.find? l.directory = some (.folder []))
    (saved : l.save files schema = (written, .ok file)) :
    (∃ name, files.locate? l.directory file = some (l.directory ++ [name]) ∧
        written.find? l.directory = some (.folder [(name, .file schema.toJson.indentedText.toUTF8)])) ∨
      (∀ name, files.locate? l.directory file ≠ some (l.directory ++ [name])) ∧
        written.find? l.directory = some (.folder []) := by
  obtain ⟨-, made, place, folder, located, writes⟩ := save_ok saved
  have same := FileTree.isFolder_makeFolder? folder (FileTree.isFolder_of_find? empty)
  have still : made.find? l.directory = some (.folder []) := by
    rw [FileTree.find?_makeFolder? folder, empty]
    rfl
  rw [FileTree.locate?_congr same] at located
  rw [located]
  rcases FileTree.find?_write? writes still with ⟨name, rfl, stands⟩ | ⟨apart, stays⟩
  · exact .inl ⟨name, rfl, stands⟩
  · exact .inr ⟨fun name there => apart name (Option.some.inj there), stays⟩

/-! ### Plain names -/

theorem toList_fileOf (schema : ObjectSchema) : (fileOf schema).toList = schema.name.toList ++ suffix := by
  rw [fileOf, String.toList_append, String.toList_ofList]

/-- The file of a schema has a stem unless the name is empty. -/
theorem isSchemaFile_fileOf_iff : isSchemaFile (fileOf schema) = true ↔ schema.name ≠ "" := by
  have ends : suffix.isSuffixOf (fileOf schema).toList = true :=
    List.isSuffixOf_iff_suffix.2 (toList_fileOf schema ▸ List.suffix_append ..)
  have size : (fileOf schema).length = schema.name.length + suffix.length := by
    rw [← String.length_toList, toList_fileOf, List.length_append, String.length_toList]
  rw [isSchemaFile, ends, Bool.and_true, decide_eq_true_iff, size, Nat.lt_add_left_iff_pos, Nat.pos_iff_ne_zero, ne_eq,
    String.length_eq_zero_iff]

/-- Without a slash in its name, a schema has its file in the directory. -/
theorem locate?_fileOf (there : files.isFolder l.directory = true) (plain : '/' ∉ schema.name.toList)
    (named : FileTree.isFileName (fileOf schema) = true) :
    files.locate? l.directory (fileOf schema) = some (l.directory ++ [fileOf schema]) := by
  have slash : '/' ∉ (fileOf schema).toList := by
    rw [toList_fileOf, List.mem_append]
    exact not_or.2 ⟨plain, by decide⟩
  have apart : ∀ name : String, name.toList.length < suffix.length → fileOf schema ≠ name := by
    rintro _ short rfl
    rw [toList_fileOf, List.length_append] at short
    omega
  obtain ⟨short, -⟩ := Bool.and_eq_true_iff.1 named
  have stem : FileTree.isStay (fileOf schema) = false := by
    simp [FileTree.isStay, apart "" (by decide), apart "." (by decide)]
  exact FileTree.locate?_of_plain there slash ((of_decide_eq_true short).trans (by decide)) stem
    (apart ".." (by decide))

/-- A schema with the name of a file can be saved into an empty directory. -/
theorem exists_save (empty : files.find? l.directory = some (.folder [])) (plain : '/' ∉ schema.name.toList)
    (named : FileTree.isFileName (fileOf schema) = true) :
    ∃ written, l.save files schema = (written, .ok (fileOf schema)) := by
  have there := FileTree.isFolder_of_find? empty
  have located := locate?_fileOf there plain named
  have free : files.lookup? l.directory (fileOf schema) = none := by
    rw [FileTree.lookup?, located, Option.bind_some, FileTree.find?_append, empty]
    rfl
  obtain ⟨made, folder⟩ := FileTree.exists_makeFolder? there
  have still : made.find? l.directory = some (.folder []) := by
    rw [FileTree.find?_makeFolder? folder, empty]
    rfl
  obtain ⟨written, writes⟩ := FileTree.exists_write? still named schema.toJson.indentedText.toUTF8
  have same := FileTree.locate?_congr (FileTree.isFolder_makeFolder? folder there) l.directory (fileOf schema)
  refine ⟨written, ?_⟩
  simp only [save, free, folder, FileTree.writeAt?, same, located, Option.bind_some, writes]
  rfl

/-! ## Loading a saved schema -/

/-- A schema that was saved into an empty directory loads back if and only if its name makes the path of a schema file
in that directory, its text is not nested more deeply than a text may be, and no custom default in it is null. -/
theorem saved_loads_back_iff {directory : Place} {compiler : Compiler} {compiled : CompiledSchema}
    (empty : files.find? directory = some (.folder []))
    (fit : ObjectSchema.Throughout schema Field.SettingsFit)
    (compiles : (compiler.compile schema.name schema).result = .ok compiled)
    (saved : (Loader.empty directory compiler).save files schema = (written, .ok file)) :
    let loaded := (Loader.empty directory compiler).loadAll written
    (loaded.2.result = .ok 1 ∧ loaded.1.get? schema.name = some schema) ↔
      (∃ name, files.locate? directory file = some (directory ++ [name]) ∧ isSchemaFile name = true) ∧
        schema.toJson.nesting ≤ Json.nestingLimit ∧
          ObjectSchema.Throughout schema fun f => f.custom ≠ some .null := by
  intro loaded
  rw [← FileTree.schema?_saved_iff fit]
  -- The directory was empty, so the saved file is the only one in it, or there is none.
  rcases find?_save (l := Loader.empty directory compiler) empty saved with ⟨name, located, stands⟩ | ⟨apart, stays⟩
  · refine (loadAll_singleton_iff stands rfl compiles).trans ⟨fun ⟨named, said⟩ => ⟨⟨name, located, named⟩, said⟩, ?_⟩
    rintro ⟨⟨other, there, named⟩, said⟩
    have same := List.append_cancel_left (Option.some.inj (located.symm.trans there))
    cases same
    exact ⟨named, said⟩
  · have nothing : loaded.2.result = .ok 0 := (loadAll_without_files stays nofun).2
    constructor
    · rintro ⟨one, -⟩
      rw [nothing] at one
      cases one
    · rintro ⟨⟨name, located, -⟩, -⟩
      exact absurd located (apart name)

/-- A schema with a default and a depth of its own. -/
def profileSchema : ObjectSchema :=
  let address : ObjectSchema := ⟨"Address", none, [{ Field.plain "city" .string with custom := some (.str "Rome") }]⟩
  ⟨"Profile", some "Who it is", [Field.plain "age" .int,
    { Field.plain "homes" (.dict .string (.object address)) with maxNestedDepth := some 2 }]⟩

/-- A directory without files. -/
def emptyDirectory : FileTree :=
  .folder [("schemas", .folder [])]

theorem profileSchema_settings :
    ObjectSchema.Throughout profileSchema fun f => f.SettingsFit ∧ f.custom ≠ some .null := by
  have settings : ObjectSchema.Throughout profileSchema fun f =>
      (∀ v ∈ f.custom, v = .str "Rome") ∧ ∀ n ∈ f.maxNestedDepth, n < Word.unsignedBound := by
    decide
  intro model held f declared
  obtain ⟨custom, maxNestedDepth⟩ := settings model held f declared
  refine ⟨⟨fun v given => ?_, maxNestedDepth⟩, fun given => ?_⟩
  · cases custom v given
    exact ⟨.str _, .str _⟩
  · cases custom .null given

theorem profileSchema_loads_back :
    let l := Loader.empty ["schemas"] .standard
    ∃ written compiled,
      emptyDirectory.find? ["schemas"] = some (.folder []) ∧
      ObjectSchema.Throughout profileSchema Field.SettingsFit ∧
      (Compiler.standard.compile profileSchema.name profileSchema).result = .ok compiled ∧
      l.save emptyDirectory profileSchema = (written, .ok "Profile.json") ∧
      (l.loadAll written).2.result = .ok 1 ∧ (l.loadAll written).1.get? profileSchema.name = some profileSchema := by
  intro l
  have ends : (Compiler.standard.compile profileSchema.name profileSchema).result.isOk = true := by decide +kernel
  obtain ⟨compiled, compiles⟩ := exists_eq_ok_of_isOk ends
  have fit : ObjectSchema.Throughout profileSchema Field.SettingsFit :=
    fun model held f declared => (profileSchema_settings model held f declared).1
  have nonnull : ObjectSchema.Throughout profileSchema fun f => f.custom ≠ some .null :=
    fun model held f declared => (profileSchema_settings model held f declared).2
  have empty : emptyDirectory.find? l.directory = some (.folder []) := rfl
  have plain : '/' ∉ profileSchema.name.toList := by decide
  have named : FileTree.isFileName (fileOf profileSchema) = true := by decide
  obtain ⟨written, saved⟩ := exists_save empty plain named
  have located := locate?_fileOf (FileTree.isFolder_of_find? empty) plain named
  have stem : isSchemaFile (fileOf profileSchema) = true := isSchemaFile_fileOf_iff.2 (by decide)
  have back := (saved_loads_back_iff empty fit compiles saved).2 ⟨⟨_, located, stem⟩, by decide, nonnull⟩
  exact ⟨written, compiled, empty, fit, compiles, saved, back⟩

/-- A schema without a name is saved, and its file is no schema file: the load ends well and finds nothing. -/
theorem unnamed_schema_is_lost :
    let l := Loader.empty ["schemas"] .standard
    let unnamed : ObjectSchema := ⟨"", none, []⟩
    (Compiler.standard.compile unnamed.name unnamed).result.isOk = true ∧
      ∃ written, l.save emptyDirectory unnamed = (written, .ok ".json") ∧
        (l.loadAll written).2.result = .ok 0 ∧ (l.loadAll written).1.get? unnamed.name = none := by
  intro l unnamed
  refine ⟨by decide, ?_⟩
  have empty : emptyDirectory.find? l.directory = some (.folder []) := rfl
  have plain : '/' ∉ unnamed.name.toList := by decide
  have named : FileTree.isFileName (fileOf unnamed) = true := by decide
  obtain ⟨written, saved⟩ := exists_save empty plain named
  have located := locate?_fileOf (FileTree.isFolder_of_find? empty) plain named
  rcases find?_save empty saved with ⟨name, there, stands⟩ | ⟨apart, -⟩
  · cases List.append_cancel_left (Option.some.inj (located.symm.trans there))
    obtain ⟨last, nothing⟩ := loadAll_without_files stands (List.forall_mem_singleton.2 (by decide))
    exact ⟨written, saved, nothing, by rw [last]; rfl⟩
  · exact absurd located (apart _)

end Loader

end DocSchema
