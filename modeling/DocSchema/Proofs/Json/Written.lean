import DocSchema.Json.Form
import DocSchema.Proofs.Json.Canonical

/-!
# Values as they are written

A value is written with the members of every object in ascending order, or in a text in the order in which they stand.
What is read of an object whose members have different names depends on the member of each name only, so the order
does not matter to a reader. What was written is read back part by part.
-/

namespace DocSchema

namespace Json

namespace Tree

/-! ## Readers of objects -/

section Readers

variable {members : List (String × Tree)}

/-- Where no name is repeated, the member of a name is the one that is looked up. -/
theorem unique?_eq (distinct : (Assoc.names members).Nodup) (name : String) :
    unique? name members = some (Assoc.get? name members) := by
  induction members with
  | nil => rfl
  | cons m rest ih =>
    obtain ⟨fresh, distinct⟩ := List.nodup_cons.1 distinct
    by_cases same : m.1 = name
    · have others : rest.filter (fun m => m.1 = name) = [] := by
        refine List.filter_eq_nil_iff.2 fun other member here => fresh ?_
        rw [same, ← of_decide_eq_true here]
        exact List.mem_map_of_mem member
      simp [unique?, Assoc.get?, same, others]
    · have later := ih distinct
      unfold unique? at later ⊢
      rw [List.filter_cons_of_neg (by simpa using same), later]
      simp [Assoc.get?, same]

theorem parts?_eq (distinct : (Assoc.names members).Nodup) (names : List String) :
    ∃ parts, parts? names (.obj members) = some parts ∧
      ∀ name ∈ names, parts.find? name = Assoc.get? name members := by
  have known : ((members.filter fun m => names.contains m.1).map Prod.fst).Nodup :=
    distinct.sublist (List.filter_sublist.map _)
  refine ⟨⟨members.filter fun m => names.contains m.1⟩, if_pos known, fun name listed => ?_⟩
  exact Assoc.get?_filter (fun _ => by simpa using listed) members

end Readers

end Tree

/-! ## Written values -/

/-- The tree of a value as it is written. -/
def written (v : Json) : Tree :=
  .ofJson v.canonical

@[simp] theorem written_arr (items : List Json) : written (.arr items) = .arr (items.map written) := by
  rw [written, canonical, Tree.ofJson, canonicalItems_eq, Tree.ofItems_eq, List.map_map]
  rfl

/-! ## Spellings -/

/-- The members of a tree are the spellings of the given parts, in whatever order. -/
structure Spells (spell : Json → Tree) (members : List (String × Tree)) (parts : Members) : Prop where
  distinct : (Assoc.names members).Nodup
  get? : ∀ name, Assoc.get? name members = (Assoc.get? name parts).map spell

/-- A way to spell values as trees of the same value. Items are spelled in their order, members in some order. -/
structure Spelling (spell : Json → Tree) : Prop where
  bool : ∀ b, spell (.bool b) = .bool b
  num : ∀ n, spell (.num n) = .num n
  str : ∀ s, spell (.str s) = .str s
  arr : ∀ items, spell (.arr items) = .arr (items.map spell)
  obj : ∀ parts : Members, (Assoc.names parts).Nodup →
    ∃ members, spell (.obj parts) = .obj members ∧ Spells spell members parts
  value? : ∀ v, (spell v).value? = some v.canonical

/-- An object without repeated names is written with its members in another order. -/
theorem written_obj {parts : Members} (distinct : (Assoc.names parts).Nodup) :
    ∃ members, written (.obj parts) = .obj members ∧ Spells written members parts := by
  have names : Assoc.names (parts.map fun m => (m.1, m.2.canonical)) = Assoc.names parts := by
    rw [Assoc.names, List.map_map]
    rfl
  refine ⟨_, by rw [written, canonical, Tree.ofJson], ?_, fun name => ?_⟩
  · rw [canonicalMembers_eq, Tree.ofMembers_eq, Assoc.names, List.map_map]
    exact (Assoc.Sorted.ofList _).names_nodup
  · rw [canonicalMembers_eq, Tree.ofMembers_eq, Assoc.get?_map, Assoc.get?_ofList (names ▸ distinct),
      Assoc.get?_map, Option.map_map]
    rfl

theorem spelling_written : Spelling written where
  bool _ := rfl
  num _ := rfl
  str _ := rfl
  arr := written_arr
  obj _ := written_obj
  value? v := by rw [written, Tree.value?_ofJson, canonical_of_ordered (ordered_canonical v)]

/-- A value may also be spelled with its members as they stand. -/
theorem spelling_ofJson : Spelling Tree.ofJson where
  bool _ := rfl
  num _ := rfl
  str _ := rfl
  arr items := by rw [Tree.ofJson, Tree.ofItems_eq]
  obj parts distinct := by
    refine ⟨_, by rw [Tree.ofJson, Tree.ofMembers_eq], ?_, fun name => Assoc.get?_map ..⟩
    rw [Assoc.names, List.map_map]
    exact distinct
  value? := Tree.value?_ofJson

/-- The known parts of a spelled object, whatever else is in it. -/
theorem Spells.parts? {spell : Json → Tree} {members : List (String × Tree)} {parts : Members}
    (spelled : Spells spell members parts) (names : List String) :
    ∃ found, (Tree.obj members).parts? names = some found ∧
      ∀ name ∈ names, found.find? name = (Assoc.get? name parts).map spell := by
  obtain ⟨found, read, held⟩ := Tree.parts?_eq spelled.distinct names
  exact ⟨found, read, fun name listed => (held name listed).trans (spelled.get? name)⟩

theorem parts?_written {parts : Members} (distinct : (Assoc.names parts).Nodup) (names : List String) :
    ∃ found, (written (.obj parts)).parts? names = some found ∧
      ∀ name ∈ names, found.find? name = (Assoc.get? name parts).map written := by
  obtain ⟨members, tree, spelled⟩ := written_obj distinct
  exact tree ▸ spelled.parts? names

theorem mapM_spelled {α : Type} {spell : Json → Tree} {write : α → Json} {read : Tree → Option α} {as : List α}
    (back : ∀ a ∈ as, read (spell (write a)) = some a) : ((as.map write).map spell).mapM read = some as := by
  rw [List.map_map, List.mapM_map]
  exact (mapM_eq_some_map back).trans (congrArg some (List.map_id as))

namespace Spelling

variable {spell : Json → Tree} (spelling : Spelling spell)
include spelling

theorem readable (v : Json) : (spell v).readable = true := by
  rw [Tree.readable, spelling.value?]
  rfl

theorem value?_of_ordered {v : Json} (ordered : v.Ordered) : (spell v).value? = some v := by
  rw [spelling.value?, canonical_of_ordered ordered]

theorem ne_null {v : Json} (nonnull : v ≠ .null) : spell v ≠ .null := by
  intro same
  have value := spelling.value? v
  rw [same] at value
  cases v with
  | null => exact nonnull rfl
  | _ => cases value

theorem str? (s : String) : Tree.str? (spell (.str s)) = some s := by
  rw [spelling.str]
  rfl

theorem bool? (b : Bool) : Tree.bool? (spell (.bool b)) = some b := by
  rw [spelling.bool]
  rfl

theorem nat? {bound n : Nat} (below : n < bound) : Tree.nat? bound (spell (.num (.int n))) = some n := by
  rw [spelling.num]
  exact if_pos below

end Spelling

theorem Tree.Parts.require_of_find? {α : Type} {parts : Parts} {read : Tree → Option α} {name : String} {t : Tree}
    {a : α} (found : parts.find? name = some t) (back : read t = some a) : parts.require read name = some a := by
  rw [require, found]
  exact back

theorem Tree.Parts.get_of_find? {α : Type} {parts : Parts} {read : Tree → Option α} {name : String} {t : Tree}
    {a : α} (found : parts.find? name = some t) (back : read t = some a) (default : α) :
    parts.get read name default = some a := by
  rw [get, found]
  exact back

/-- A part that is written if it is there is read back as it was. -/
theorem Spelling.optional {spell : Json → Tree} (spelling : Spelling spell) {α : Type} {parts : Tree.Parts}
    {read : Tree → Option α} {name : String} {write : α → Json} {part : Option α}
    (found : parts.find? name = (part.map write).map spell)
    (back : ∀ a, part = some a → write a ≠ .null ∧ read (spell (write a)) = some a) :
    parts.optional read name = some part := by
  unfold Tree.Parts.optional
  rw [found]
  cases part with
  | none => rfl
  | some a =>
    obtain ⟨nonnull, back⟩ := back a rfl
    have tree := spelling.ne_null nonnull
    simp only [Option.map_some, back]

/-- A custom default is not null, which stands for none, and is in canonical form. -/
def ExactDefault (custom : Option Json) : Prop :=
  ∀ v, custom = some v → v ≠ .null ∧ v.Ordered

theorem ExactDefault.optional {spell : Json → Tree} (spelling : Spelling spell) {parts : Tree.Parts} {name : String}
    {custom : Option Json} (default : ExactDefault custom) (found : parts.find? name = custom.map spell) :
    parts.optional Tree.value? name = some custom := by
  have found : parts.find? name = (custom.map id).map spell := by rw [found, Option.map_id_fun, id]
  refine spelling.optional found fun v same => ?_
  obtain ⟨nonnull, ordered⟩ := default v same
  exact ⟨nonnull, spelling.value?_of_ordered ordered⟩

/-- A default that is read is not null. -/
theorem exactDefault_of_optional {parts : Tree.Parts} {name : String} {custom : Option Json}
    (read : parts.optional Tree.value? name = some custom) : ExactDefault custom := by
  rintro v rfl
  unfold Tree.Parts.optional at read
  split at read
  · cases read
  · cases read
  · next t nonnull _ =>
    obtain ⟨w, value, ⟨⟩⟩ := Option.map_eq_some_iff.1 read
    refine ⟨fun null => ?_, Tree.ordered_of_value? value⟩
    subst null
    exact nonnull (Tree.eq_null_of_value? value)

theorem Tree.lt_of_nat? {bound n : Nat} {t : Tree} (read : nat? bound t = some n) : n < bound := by
  unfold nat? at read
  split at read
  · split at read
    · next below =>
      cases read
      exact below
    · cases read
  · cases read

/-- A part that is there was read. -/
theorem Tree.Parts.exists_of_optional {α : Type} {parts : Parts} {read : Tree → Option α} {name : String} {a : α}
    (found : parts.optional read name = some (some a)) : ∃ t, read t = some a := by
  unfold optional at found
  split at found
  · cases found
  · cases found
  · next t _ _ =>
    obtain ⟨_, value, ⟨⟩⟩ := Option.map_eq_some_iff.1 found
    exact ⟨t, value⟩

/-- What is written of an exact value is read back as the value. All that is read is exact, so it is the same when
it is written and read once more. -/
structure RoundTrips {α : Type} (write : α → Json) (read : Tree → Option α) (Exact : α → Prop) : Prop where
  back : ∀ x, Exact x → read (write x).written = some x
  exact : ∀ t x, read t = some x → Exact x
  again : ∀ t x, read t = some x → read (write x).written = some x

theorem RoundTrips.of {α : Type} {write : α → Json} {read : Tree → Option α} {Exact : α → Prop}
    (back : ∀ x, Exact x → read (write x).written = some x) (exact : ∀ t x, read t = some x → Exact x) :
    RoundTrips write read Exact :=
  ⟨back, exact, fun t x found => back x (exact t x found)⟩

end Json

end DocSchema
