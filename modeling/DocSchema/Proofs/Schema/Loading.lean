import DocSchema.Proofs.Action
import DocSchema.Schema.Loader
import Mathlib

/-!
# Loaded schemas

A load takes the files of a directory one after the other, and each schema is kept as soon as its file was read. So a
load that ends well has kept the schema of every file, and one that fails has kept those of the files before the one
that it could not use.
-/

namespace DocSchema

/-- The schema that a file says, if its text says one. -/
def FileTree.schema? (file : FileTree) : Option ObjectSchema :=
  file.text?.bind fun text => (Json.Tree.ofText? (some Json.nestingLimit) text).bind Model.ofTree?

namespace Loader

/-- What `next` holds more than `l`: each of the gained schemas compiles, and each is kept under its own name, which
was not taken before and is no other's. -/
structure Gains (l : Loader) (gained : List ObjectSchema) (next : Loader) : Prop where
  directory : next.directory = l.directory
  compiler : next.compiler = l.compiler
  compiles : ∀ s ∈ gained, ∃ compiled, (l.compiler.compile s.name s).result = .ok compiled
  fresh : ∀ s ∈ gained, l.get? s.name = none
  distinct : (gained.map Model.name).Nodup
  get?_iff : ∀ name s, next.get? name = some s ↔ l.get? name = some s ∨ s ∈ gained ∧ s.name = name

/-- Why a loader cannot use a file: there is no text, or the text says no schema, or the name of the schema is taken,
or the schema does not compile. -/
inductive Refuses (l : Loader) (name : String) (file : FileTree) : SchemaError → Prop
  | unreadable (unread : file.text? = none) : Refuses l name file (l.malformed name .readFile)
  | malformed {text : String} (read : file.text? = some text) (invalid : file.schema? = none) :
      Refuses l name file (l.malformed name .invalidJson)
  | taken {s other : ObjectSchema} (said : file.schema? = some s) (held : l.get? s.name = some other) :
      Refuses l name file (.alreadyRegistered s.name)
  | invalid {s : ObjectSchema} {e : SchemaError} (said : file.schema? = some s) (free : l.get? s.name = none)
      (failed : (l.compiler.compile s.name s).result = .error e) : Refuses l name file e

variable {l mid next : Loader} {s : ObjectSchema} {name : String} {file : FileTree}

/-! ## Single schemas -/

theorem Gains.nil (l : Loader) : l.Gains [] l where
  directory := rfl
  compiler := rfl
  compiles := nofun
  fresh := nofun
  distinct := List.nodup_nil
  get?_iff := by simp

/-- One schema is gained, then others. -/
theorem Gains.cons {gained : List ObjectSchema} (first : l.Gains [s] mid) (others : mid.Gains gained next) :
    l.Gains (s :: gained) next where
  directory := others.directory.trans first.directory
  compiler := others.compiler.trans first.compiler
  compiles := by
    intro t member
    rcases List.mem_cons.1 member with rfl | member
    · exact first.compiles t List.mem_cons_self
    · rw [← first.compiler]
      exact others.compiles t member
  fresh := by
    intro t member
    rcases List.mem_cons.1 member with rfl | member
    · exact first.fresh t List.mem_cons_self
    · refine Option.eq_none_iff_forall_ne_some.2 fun held before => ?_
      have kept := (first.get?_iff t.name held).2 (.inl before)
      rw [others.fresh t member] at kept
      cases kept
  distinct := by
    refine List.nodup_cons.2 ⟨fun repeated => ?_, others.distinct⟩
    obtain ⟨t, member, same⟩ := List.mem_map.1 repeated
    have free := others.fresh t member
    rw [same, (first.get?_iff s.name s).2 (.inr ⟨List.mem_cons_self, rfl⟩)] at free
    cases free
  get?_iff := by
    intro name t
    rw [others.get?_iff, first.get?_iff, List.mem_singleton, List.mem_cons, or_and_right, or_assoc]

theorem contains_eq_false_iff : l.schemas.contains name = false ↔ l.get? name = none := by
  simp [SortedMap.contains, get?]

/-- A schema that is registered is gained. -/
theorem register_ok (success : (l.register s).result = .ok next) : l.Gains [s] next := by
  unfold register at success
  split at success
  · cases success
  · next free =>
    have free : l.get? s.name = none := contains_eq_false_iff.1 (Bool.eq_false_iff.2 free)
    obtain ⟨compiled, compiles, success⟩ := Traced.bind_ok_iff.1 success
    cases success
    refine ⟨rfl, rfl, ?_, ?_, List.pairwise_singleton _ _, fun name t => ?_⟩
    · exact List.forall_mem_singleton.2 ⟨compiled, compiles⟩
    · exact List.forall_mem_singleton.2 free
    · by_cases same : s.name = name
      · subst same
        have kept : get? { l with schemas := l.schemas.insert s.name s } s.name = some s :=
          l.schemas.get?_insert_self s.name s
        rw [kept, free]
        simp only [Option.some.injEq, reduceCtorEq, false_or, List.mem_singleton]
        constructor
        · rintro rfl
          exact ⟨rfl, rfl⟩
        · exact fun gained => gained.1.symm
      · have kept : get? { l with schemas := l.schemas.insert s.name s } name = l.get? name :=
          l.schemas.get?_insert_of_ne same s
        rw [kept, List.mem_singleton]
        refine ⟨.inl, ?_⟩
        rintro (held | ⟨rfl, named⟩)
        · exact held
        · exact absurd named same

/-- A schema whose name is free is registered if it compiles. -/
theorem register_of_compiles {compiled : CompiledSchema} (free : l.get? s.name = none)
    (compiles : (l.compiler.compile s.name s).result = .ok compiled) :
    (l.register s).result = .ok { l with schemas := l.schemas.insert s.name s } := by
  have free : ¬ l.schemas.contains s.name = true :=
    Bool.eq_false_iff.1 (contains_eq_false_iff.2 free)
  rw [register, if_neg free, Traced.result_bind, compiles]
  rfl

theorem register_error {e : SchemaError} (failed : (l.register s).result = .error e) :
    (∃ other, l.get? s.name = some other ∧ e = .alreadyRegistered s.name) ∨
      l.get? s.name = none ∧ (l.compiler.compile s.name s).result = .error e := by
  unfold register at failed
  split at failed
  · next taken =>
    cases failed
    obtain ⟨other, held⟩ := Option.isSome_iff_exists.1 taken
    exact .inl ⟨other, held, rfl⟩
  · next free =>
    refine .inr ⟨contains_eq_false_iff.1 (Bool.eq_false_iff.2 free), ?_⟩
    rcases Traced.bind_error_iff.1 failed with failed | ⟨_, _, ended⟩
    · exact failed
    · cases ended

/-! ## Files -/

/-- A file is loaded by registering the schema that it says. -/
theorem loadFile_eq (l : Loader) (name : String) (file : FileTree) :
    l.loadFile name file =
      match file.schema?, file.text? with
      | some s, _ => l.register s
      | none, some _ => Traced.fail (l.malformed name .invalidJson)
      | none, none => Traced.fail (l.malformed name .readFile) := by
  unfold loadFile FileTree.schema?
  cases file.text? with
  | none => rfl
  | some text =>
    simp only [Option.bind_some]
    cases (Json.Tree.ofText? (some Json.nestingLimit) text).bind Model.ofTree? <;> rfl

theorem loadFile_ok (success : (l.loadFile name file).result = .ok next) :
    ∃ s, file.schema? = some s ∧ l.Gains [s] next := by
  rw [loadFile_eq] at success
  split at success
  · next s said => exact ⟨s, said, register_ok success⟩
  · cases success
  · cases success

theorem loadFile_error {e : SchemaError} (failed : (l.loadFile name file).result = .error e) :
    l.Refuses name file e := by
  rw [loadFile_eq] at failed
  split at failed
  · next s said =>
    rcases register_error failed with ⟨other, held, rfl⟩ | ⟨free, failed⟩
    · exact .taken said held
    · exact .invalid said free failed
  · next text invalid read =>
    cases failed
    exact .malformed read invalid
  · next unread =>
    cases failed
    exact .unreadable unread

/-- A loader that has kept the schemas of some files: each of them says one, and those are gained. -/
def Loads (l : Loader) (files : List (String × FileTree)) (next : Loader) : Prop :=
  ∃ gained, files.map (fun f => f.2.schema?) = gained.map some ∧ l.Gains gained next

theorem Loads.nil (l : Loader) : l.Loads [] l :=
  ⟨[], rfl, .nil l⟩

theorem Loads.cons {files : List (String × FileTree)} (said : file.schema? = some s) (first : l.Gains [s] mid)
    (others : mid.Loads files next) : l.Loads ((name, file) :: files) next := by
  obtain ⟨gained, read, gains⟩ := others
  refine ⟨s :: gained, ?_, first.cons gains⟩
  rw [List.map_cons, List.map_cons, said, read]

/-- A load gains no schema but those of the files. -/
theorem Loads.exists_file {files : List (String × FileTree)} (loads : l.Loads files next)
    (free : l.get? s.name = none) (held : next.get? s.name = some s) :
    ∃ f ∈ files, f.2.schema? = some s := by
  obtain ⟨gained, read, gains⟩ := loads
  rcases (gains.get?_iff s.name s).1 held with before | ⟨member, -⟩
  · exact absurd (free.symm.trans before) nofun
  · have said : some s ∈ files.map fun f => f.2.schema? := read ▸ List.mem_map_of_mem member
    exact List.mem_map.1 said

/-- Nothing has changed only if there was nothing to keep. -/
theorem Loads.unchanged_iff {files : List (String × FileTree)} (loads : l.Loads files next) :
    (∀ name, next.get? name = l.get? name) ↔ files = [] := by
  obtain ⟨gained, read, gains⟩ := loads
  constructor
  · intro unchanged
    cases gained with
    | nil => exact List.map_eq_nil_iff.1 read
    | cons s rest =>
      have kept := (gains.get?_iff s.name s).2 (.inr ⟨List.mem_cons_self, rfl⟩)
      rw [unchanged, gains.fresh s List.mem_cons_self] at kept
      cases kept
  · rintro rfl name
    have nothing : gained = [] := List.map_eq_nil_iff.1 read.symm
    subst nothing
    refine Option.ext fun s => ?_
    rw [gains.get?_iff]
    simp

/-- Files are loaded up to the first that is refused. -/
theorem loadFiles_outcome (l : Loader) (files : List (String × FileTree)) :
    (∀ u, (l.loadFiles files).2.result = .ok u → l.Loads files (l.loadFiles files).1) ∧
    (∀ e, (l.loadFiles files).2.result = .error e → ∃ before name file after,
      files = before ++ (name, file) :: after ∧ l.Loads before (l.loadFiles files).1 ∧
        (l.loadFiles files).1.Refuses name file e) := by
  induction files generalizing l with
  | nil => exact ⟨fun _ _ => .nil l, nofun⟩
  | cons first rest ih =>
    obtain ⟨name, file⟩ := first
    cases loaded : (l.loadFile name file).result with
    | error e =>
      have stopped : l.loadFiles ((name, file) :: rest) = (l, ⟨(l.loadFile name file).notes, .error e⟩) := by
        simp only [loadFiles, loaded]
      rw [stopped]
      refine ⟨nofun, ?_⟩
      rintro _ ⟨⟩
      exact ⟨[], name, file, rest, rfl, .nil l, loadFile_error loaded⟩
    | ok mid =>
      have onward : l.loadFiles ((name, file) :: rest) = ((mid.loadFiles rest).1,
          ⟨(l.loadFile name file).notes ++ (mid.loadFiles rest).2.notes, (mid.loadFiles rest).2.result⟩) := by
        simp only [loadFiles, loaded]
      obtain ⟨s, said, gains⟩ := loadFile_ok loaded
      obtain ⟨ended, failed⟩ := ih mid
      rw [onward]
      refine ⟨fun u success => .cons said gains (ended u success), fun e failure => ?_⟩
      obtain ⟨before, other, refused, after, split, others, why⟩ := failed e failure
      exact ⟨(name, file) :: before, other, refused, after, congrArg _ split, .cons said gains others, why⟩

/-! ## Directories -/

/-- The files that a load goes through: those of the directory with the names of schema files, in order. -/
def found (l : Loader) (files : FileTree) : List (String × FileTree) :=
  match files.find? l.directory with
  | some (.folder entries) => schemaFiles entries
  | _ => []

theorem mem_schemaFiles_iff {entries : List (String × FileTree)} {f : String × FileTree} :
    f ∈ schemaFiles entries ↔ f ∈ entries ∧ isSchemaFile f.1 = true := by
  rw [schemaFiles, List.mem_mergeSort, List.mem_filter]

theorem schemaFiles_singleton {name : String} (named : isSchemaFile name = true) (file : FileTree) :
    schemaFiles [(name, file)] = [(name, file)] := by
  have kept : [(name, file)].filter (fun f => isSchemaFile f.1) = [(name, file)] := by simp [named]
  rw [schemaFiles, kept, List.mergeSort_singleton]

/-- The schema files of a folder are loaded in order, and counted if that ends well. -/
theorem loadAll_folder {files : FileTree} {entries : List (String × FileTree)}
    (directory : files.find? l.directory = some (.folder entries)) :
    (l.loadAll files).1 = (l.loadFiles (schemaFiles entries)).1 ∧
      (l.loadAll files).2.result =
        (l.loadFiles (schemaFiles entries)).2.result.map fun _ => (schemaFiles entries).length := by
  simp only [loadAll, directory, true_and]
  rw [Traced.result_bind]
  cases (l.loadFiles (schemaFiles entries)).2.result <;> rfl

/-- Nothing is loaded from a directory without schema files. -/
theorem loadAll_without_files {files : FileTree} {entries : List (String × FileTree)}
    (directory : files.find? l.directory = some (.folder entries))
    (others : ∀ f ∈ entries, isSchemaFile f.1 = false) :
    (l.loadAll files).1 = l ∧ (l.loadAll files).2.result = .ok 0 := by
  have nothing : schemaFiles entries = [] := by
    refine List.eq_nil_iff_forall_not_mem.2 fun f member => ?_
    obtain ⟨member, named⟩ := mem_schemaFiles_iff.1 member
    exact absurd named (ne_true_of_eq_false (others f member))
  obtain ⟨last, ended⟩ := loadAll_folder directory
  rw [last, ended, nothing]
  exact ⟨rfl, rfl⟩

/-- The only file of a directory gives a schema that compiles if it is a schema file and says the schema. -/
theorem loadAll_singleton_iff {compiled : CompiledSchema} {files : FileTree}
    (directory : files.find? l.directory = some (.folder [(name, file)])) (free : l.get? s.name = none)
    (compiles : (l.compiler.compile s.name s).result = .ok compiled) :
    ((l.loadAll files).2.result = .ok 1 ∧ (l.loadAll files).1.get? s.name = some s) ↔
      isSchemaFile name = true ∧ file.schema? = some s := by
  obtain ⟨last, ended⟩ := loadAll_folder directory
  rw [last, ended]
  constructor
  · rintro ⟨success, held⟩
    cases loaded : (l.loadFiles (schemaFiles [(name, file)])).2.result with
    | error e =>
      rw [loaded] at success
      cases success
    | ok u =>
      obtain ⟨f, member, said⟩ := ((l.loadFiles_outcome _).1 u loaded).exists_file free held
      obtain ⟨member, named⟩ := mem_schemaFiles_iff.1 member
      cases List.mem_singleton.1 member
      exact ⟨named, said⟩
  · rintro ⟨named, said⟩
    have loaded : (l.loadFile name file).result =
        .ok { l with schemas := l.schemas.insert s.name s } := by
      rw [loadFile_eq, said]
      exact register_of_compiles free compiles
    rw [schemaFiles_singleton named]
    simp only [loadFiles, loaded]
    exact ⟨rfl, l.schemas.get?_insert_self s.name s⟩

/-- A load that ends well has kept the schema of every schema file of the directory beside what was held before, and
tells how many files there are. A load that fails has kept the schemas of the files before the one that it refuses;
so it has changed nothing only if that file is the first, or if there is no directory where it looks for one. -/
theorem loadAll_keeps_earlier_files (l : Loader) (files : FileTree) :
    let next := (l.loadAll files).1
    let outcome := (l.loadAll files).2.result
    (∀ n, outcome = .ok n → n = (l.found files).length ∧ l.Loads (l.found files) next) ∧
    (∀ e, outcome = .error e →
      (∃ content, files.find? l.directory = some (.file content)) ∧ next = l ∨
      ∃ before name file after, l.found files = before ++ (name, file) :: after ∧ l.Loads before next ∧
        next.Refuses name file e ∧ ((∀ name, next.get? name = l.get? name) ↔ before = [])) := by
  intro next outcome
  cases directory : files.find? l.directory with
  | none =>
    have nothing : l.loadAll files = (l, pure 0) := by simp only [loadAll, directory]
    have empty : l.found files = [] := by simp only [found, directory]
    simp only [next, outcome, nothing, empty]
    refine ⟨?_, nofun⟩
    rintro _ ⟨⟩
    exact ⟨rfl, .nil l⟩
  | some tree =>
    cases tree with
    | file content =>
      have failed : l.loadAll files = (l, Traced.fail (.malformed l.directory.text .readDirectory)) := by
        simp only [loadAll, directory]
      have kept : next = l := congrArg Prod.fst failed
      have ended : outcome = .error (.malformed l.directory.text .readDirectory) :=
        congrArg (fun loaded => loaded.2.result) failed
      rw [ended]
      exact ⟨nofun, fun _ _ => .inl ⟨⟨content, rfl⟩, kept⟩⟩
    | folder entries =>
      have files_eq : l.found files = schemaFiles entries := by simp only [found, directory]
      obtain ⟨last, ended⟩ : next = (l.loadFiles (l.found files)).1 ∧
          outcome = (l.loadFiles (l.found files)).2.result.map fun _ => (l.found files).length :=
        files_eq ▸ loadAll_folder directory
      obtain ⟨success, failure⟩ := l.loadFiles_outcome (l.found files)
      rw [last, ended]
      cases result : (l.loadFiles (l.found files)).2.result with
      | ok u =>
        refine ⟨?_, nofun⟩
        rintro _ ⟨⟩
        exact ⟨rfl, success u result⟩
      | error e =>
        refine ⟨nofun, ?_⟩
        rintro _ ⟨⟩
        obtain ⟨before, name, file, after, split, loads, why⟩ := failure e result
        exact .inr ⟨before, name, file, after, split, loads, why, loads.unchanged_iff⟩

/-- Two files, of which the second breaks off. -/
def brokenDirectory : FileTree :=
  .folder [("a.json", .file "\x7b\"name\":\"A\"\x7d".toUTF8), ("b.json", .file "\x7b".toUTF8)]

/-- Two files and a note beside them, which is not loaded. -/
def notedDirectory : FileTree :=
  .folder [("b.json", .file "[\"B\"]".toUTF8), ("a.json", .file "\x7b\"name\":\"A\"\x7d".toUTF8),
    ("note", .file "B before A".toUTF8)]

theorem schemaFiles_two (a b note : FileTree) :
    schemaFiles [("b.json", b), ("a.json", a), ("note", note)] = [("a.json", a), ("b.json", b)] := by
  have named : isSchemaFile "a.json" = true ∧ isSchemaFile "b.json" = true ∧ isSchemaFile "note" = false := by decide
  have order : ¬ "b.json" ≤ "a.json" := by decide
  simp [schemaFiles, named, order, List.mergeSort, List.MergeSort.Internal.splitInTwo]

theorem directories_loaded :
    let l := Loader.empty [] .standard
    (l.loadAll notedDirectory).2.result = .ok 2 ∧ 2 = (l.found notedDirectory).length ∧
      l.Loads (l.found notedDirectory) (l.loadAll notedDirectory).1 ∧
      (l.loadAll brokenDirectory).2.result = .error (.malformed "/b.json" .invalidJson) ∧
      ∃ before name file after, l.found brokenDirectory = before ++ (name, file) :: after ∧
        l.Loads before (l.loadAll brokenDirectory).1 ∧
        (l.loadAll brokenDirectory).1.Refuses name file (.malformed "/b.json" .invalidJson) ∧
        ((∀ name, (l.loadAll brokenDirectory).1.get? name = l.get? name) ↔ before = []) := by
  intro l
  have noted : (l.loadAll notedDirectory).2.result = .ok 2 := by
    rw [(loadAll_folder rfl).2, schemaFiles_two]
    cbv
  have broken : (l.loadAll brokenDirectory).2.result = .error (.malformed "/b.json" .invalidJson) := by cbv
  obtain ⟨count, loads⟩ := (l.loadAll_keeps_earlier_files notedDirectory).1 2 noted
  refine ⟨noted, count, loads, broken, ?_⟩
  rcases (l.loadAll_keeps_earlier_files brokenDirectory).2 _ broken with ⟨⟨content, none⟩, -⟩ | stopped
  · cases none
  · exact stopped

/-- The load of a directory fails at the second file, and the schema of the first one stays. -/
theorem brokenDirectory_keeps_first :
    let l := Loader.empty [] .standard
    (l.loadAll brokenDirectory).2.result = .error (.malformed "/b.json" .invalidJson) ∧ l.get? "A" = none ∧
      (l.loadAll brokenDirectory).1.get? "A" = some ⟨"A", none, []⟩ := by
  cbv

end Loader

end DocSchema
