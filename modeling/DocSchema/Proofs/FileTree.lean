import DocSchema.FileTree

/-!
# Written files

Making a folder that is there changes no place. A file that is written stands at its own place only, so an empty folder
holds afterwards that file or nothing.
-/

namespace DocSchema

namespace FileTree

variable {t t' : FileTree} {place folder : Place} {content : ByteArray}

/-- A text is read from a file as it was written. -/
theorem text?_file (s : String) : text? (.file s.toUTF8) = some s := by
  rw [text?, String.fromUTF8?, String.toUTF8_eq_toByteArray, dif_pos s.isValidUTF8]
  rfl

theorem find?_cons (name : String) (rest : Place) (entries : List (String × FileTree)) :
    find? (name :: rest) (.folder entries) = (Assoc.get? name entries).bind (find? rest) := by
  rw [find?]

theorem find?_append (rest : Place) : t.find? (place ++ rest) = (t.find? place).bind (find? rest) := by
  induction place generalizing t with
  | nil => rfl
  | cons name inner ih =>
    cases t with
    | file content => rfl
    | folder entries =>
      rw [List.cons_append, find?_cons, find?_cons, Option.bind_assoc]
      exact congrArg _ (funext fun _ => ih)

theorem isFolder_of_find? {entries : List (String × FileTree)} (found : t.find? place = some (.folder entries)) :
    t.isFolder place = true := by
  rw [isFolder, found]

theorem isFolder_cons (name : String) (rest : Place) (entries : List (String × FileTree)) :
    isFolder (.folder entries) (name :: rest) = (Assoc.get? name entries).any fun inner => inner.isFolder rest := by
  rw [isFolder, find?]
  cases Assoc.get? name entries <;> rfl

/-! ## Making folders -/

/-- Replacing an entry by one that leads to the same folders changes nothing about what leads to a folder. -/
theorem isFolder_insert {entries : List (String × FileTree)} {name : String} {inner inner' : FileTree}
    (held : Assoc.get? name entries = some inner) (same : ∀ p, inner'.isFolder p = inner.isFolder p) (p : Place) :
    isFolder (.folder (Assoc.insert name inner' entries)) p = isFolder (.folder entries) p := by
  cases p with
  | nil => rfl
  | cons n rest =>
    rw [isFolder_cons, isFolder_cons]
    by_cases here : name = n
    · subst here
      rw [Assoc.get?_insert_self, held, Option.any_some, Option.any_some, same]
    · rw [Assoc.get?_insert_of_ne here]

theorem isFolder_makeFolder? (made : t.makeFolder? place = some t') (there : t.isFolder place = true) (p : Place) :
    t'.isFolder p = t.isFolder p := by
  induction place generalizing t t' p with
  | nil =>
    cases t with
    | file content => cases made
    | folder entries =>
      cases made
      rfl
  | cons name rest ih =>
    cases t with
    | file content => cases made
    | folder entries =>
      rw [makeFolder?] at made
      obtain ⟨inner', inside, made⟩ := Option.bind_eq_some_iff.1 made
      cases made
      rw [isFolder_cons] at there
      cases held : Assoc.get? name entries with
      | none =>
        rw [held] at there
        cases there
      | some inner =>
        rw [held] at there inside
        exact isFolder_insert held (fun p => ih inside there p) p

theorem exists_makeFolder? (there : t.isFolder place = true) : ∃ t', t.makeFolder? place = some t' := by
  induction place generalizing t with
  | nil =>
    cases t with
    | file content => cases there
    | folder entries => exact ⟨_, rfl⟩
  | cons name rest ih =>
    cases t with
    | file content => cases there
    | folder entries =>
      rw [isFolder_cons] at there
      cases held : Assoc.get? name entries with
      | none =>
        rw [held] at there
        cases there
      | some inner =>
        rw [held] at there
        obtain ⟨inner', made⟩ := ih there
        exact ⟨_, by rw [makeFolder?, held, Option.getD_some, made]; rfl⟩

/-- The folder is there afterwards, with what was in it. -/
theorem find?_makeFolder? (made : t.makeFolder? place = some t') :
    t'.find? place = some ((t.find? place).getD (.folder [])) := by
  induction place generalizing t t' with
  | nil =>
    cases t with
    | file content => cases made
    | folder entries =>
      cases made
      rfl
  | cons name rest ih =>
    cases t with
    | file content => cases made
    | folder entries =>
      rw [makeFolder?] at made
      obtain ⟨inner', inside, made⟩ := Option.bind_eq_some_iff.1 made
      cases made
      have inner := ih inside
      rw [find?, find?, Assoc.get?_insert_self, Option.bind_some, inner]
      cases Assoc.get? name entries with
      | some inner => rfl
      | none => cases rest <;> rfl

/-- A path text leads to the same place wherever the same folders are. -/
theorem locate?_congr (same : ∀ p, t'.isFolder p = t.isFolder p) (here : Place) (path : String) :
    t'.locate? here path = t.locate? here path := by
  have follows : t'.follow = t.follow := by
    funext here name
    rw [follow, follow, same]
  rw [locate?, locate?, follows]

theorem parts_of_plain {text : List Char} (plain : '/' ∉ text) : parts text = [text] := by
  induction text with
  | nil => rfl
  | cons c rest ih =>
    obtain ⟨other, plain⟩ := not_or.1 (mt List.mem_cons.2 plain)
    rw [parts.eq_def]
    split
    · next empty => cases empty
    · next slash => exact absurd (List.cons.inj slash).1.symm other
    · next same =>
      cases same
      rw [ih plain]

/-- A path text without a slash names a file of the folder, unless it stays there or leaves it. -/
theorem locate?_of_plain {here : Place} {path : String} (there : t.isFolder here = true) (plain : '/' ∉ path.toList)
    (short : path.utf8ByteSize ≤ maxPathSize) (named : isStay path = false) (inside : path ≠ "..") :
    t.locate? here path = some (here ++ [path]) := by
  have names : names path = [path] := by
    rw [FileTree.names, parts_of_plain plain, List.map_singleton, String.ofList_toList]
  have relative : isAbsolute path = false := by
    refine decide_eq_false fun first => plain ?_
    obtain ⟨rest, start⟩ := List.head?_eq_some_iff.1 first
    rw [start]
    exact List.mem_cons_self
  have step : t.follow here path = some (here ++ [path]) := by
    rw [follow, there, named, if_neg (by decide), if_neg (by decide), if_neg inside]
  rw [locate?, if_neg (Nat.not_lt.2 short), names, relative, List.foldlM_cons, if_neg (by decide), step]
  rfl

/-! ## Writing files -/

/-- A file is written into a folder, over no folder, or further inside. -/
theorem write?_cases (written : t.write? content place = some t') :
    ∃ entries name, t = .folder entries ∧
      (place = [name] ∧ (∀ others, Assoc.get? name entries ≠ some (.folder others)) ∧
          t' = .folder (Assoc.insert name (.file content) entries) ∨
        ∃ rest inner inner', place = name :: rest ∧ rest ≠ [] ∧ Assoc.get? name entries = some inner ∧
          inner.write? content rest = some inner' ∧ t' = .folder (Assoc.insert name inner' entries)) := by
  unfold write? at written
  split at written
  · next name entries =>
    refine ⟨entries, name, rfl, .inl ⟨rfl, ?_⟩⟩
    split at written
    · cases written
    · next apart =>
      split at written
      · cases written
        exact ⟨apart, rfl⟩
      · cases written
  · next name rest entries further =>
    obtain ⟨inner, held, written⟩ := Option.bind_eq_some_iff.1 written
    obtain ⟨inner', inside, written⟩ := Option.bind_eq_some_iff.1 written
    cases written
    refine ⟨entries, name, rfl, .inr ⟨rest, inner, inner', rfl, ?_, held, inside, rfl⟩⟩
    rintro rfl
    exact further rfl
  · cases written

/-- A file can be written into an empty folder. -/
theorem exists_write? {name : String} (empty : t.find? folder = some (.folder [])) (named : isFileName name = true)
    (content : ByteArray) : ∃ t', t.write? content (folder ++ [name]) = some t' := by
  induction folder generalizing t with
  | nil =>
    cases empty
    exact ⟨_, by rw [List.nil_append, write?, Assoc.get?, named]; rfl⟩
  | cons first folder ih =>
    cases t with
    | file bytes => cases empty
    | folder entries =>
      rw [find?_cons] at empty
      obtain ⟨inner, held, empty⟩ := Option.bind_eq_some_iff.1 empty
      obtain ⟨inner', writes⟩ := ih empty
      refine ⟨.folder (Assoc.insert first inner' entries), ?_⟩
      rw [List.cons_append, write?, held]
      · simp only [Option.bind_eq_bind, Option.bind_some, writes]
        rfl
      · simp

/-- An empty folder holds the file that was written, if its place is inside of the folder, or stays empty. -/
theorem find?_write? (written : t.write? content place = some t') (empty : t.find? folder = some (.folder [])) :
    (∃ name, place = folder ++ [name] ∧ t'.find? folder = some (.folder [(name, .file content)])) ∨
      (∀ name, place ≠ folder ++ [name]) ∧ t'.find? folder = some (.folder []) := by
  induction folder generalizing t t' place with
  | nil =>
    cases empty
    obtain ⟨_, name, ⟨⟩, ⟨rfl, -, rfl⟩ | ⟨_, _, _, -, -, held, -⟩⟩ := write?_cases written
    · exact .inl ⟨name, rfl, rfl⟩
    · cases held
  | cons first folder ih =>
    obtain ⟨entries, name, rfl, steps⟩ := write?_cases written
    rw [find?] at empty
    obtain ⟨held, found, inner_empty⟩ := Option.bind_eq_some_iff.1 empty
    have elsewhere (other : name ≠ first) (inner' : FileTree) :
        find? (first :: folder) (.folder (Assoc.insert name inner' entries)) = some (.folder []) := by
      rw [find?, Assoc.get?_insert_of_ne other]
      exact empty
    rcases steps with ⟨rfl, apart, rfl⟩ | ⟨rest, inner, inner', rfl, further, inside, writes, rfl⟩
    · -- What stands on the way to the empty folder is a folder, and those are not written over.
      have other : name ≠ first := by
        rintro rfl
        cases held with
        | file bytes => cases folder <;> cases inner_empty
        | folder others => exact apart others found
      refine .inr ⟨fun n same => other ?_, elsewhere other _⟩
      exact (List.cons.inj same).1
    · by_cases here : name = first
      · subst here
        cases inside.symm.trans found
        rw [find?, Assoc.get?_insert_self, Option.bind_some]
        rcases ih writes inner_empty with ⟨n, rfl, stands⟩ | ⟨apart, stays⟩
        · exact .inl ⟨n, rfl, stands⟩
        · exact .inr ⟨fun n same => apart n (List.cons.inj same).2, stays⟩
      · exact .inr ⟨fun n same => here (List.cons.inj same).1, elsewhere here _⟩

end FileTree

end DocSchema
