import DocSchema.Json.Tree
import DocSchema.Proofs.Assoc

/-!
# Values in canonical form

A value is in canonical form exactly if the members of its objects are in order. A tree that is readable has a
value in canonical form, and the tree of a value has the value that it is made of.
-/

namespace DocSchema

section Lists

variable {α β : Type} {f : α → Option β} {as : List α}

theorem mapM_eq_some_map {g : α → β} (each : ∀ a ∈ as, f a = some (g a)) : as.mapM f = some (as.map g) := by
  induction as with
  | nil => rfl
  | cons a rest ih =>
    rw [List.mapM_cons, each a List.mem_cons_self, ih fun b member => each b (List.mem_cons_of_mem a member)]
    rfl

theorem exists_of_mapM {bs : List β} (found : as.mapM f = some bs) {b : β} (member : b ∈ bs) :
    ∃ a ∈ as, f a = some b := by
  induction as generalizing bs with
  | nil =>
    cases found
    cases member
  | cons a rest ih =>
    rw [List.mapM_cons] at found
    obtain ⟨c, first, found⟩ := Option.bind_eq_some_iff.1 found
    obtain ⟨later, others, found⟩ := Option.bind_eq_some_iff.1 found
    cases found
    rcases List.mem_cons.1 member with rfl | member
    · exact ⟨a, List.mem_cons_self, first⟩
    · obtain ⟨u, held, value⟩ := ih others member
      exact ⟨u, List.mem_cons_of_mem a held, value⟩

theorem mapM_eq_none {a : α} (member : a ∈ as) (fails : f a = none) : as.mapM f = none := by
  induction as with
  | nil => cases member
  | cons b rest ih =>
    rw [List.mapM_cons]
    rcases List.mem_cons.1 member with rfl | member
    · rw [fails]
      rfl
    · rw [ih member]
      cases f b <;> rfl

end Lists

theorem Assoc.Sorted.of_ordered {members : Json.Members} (ordered : (Json.obj members).Ordered) :
    Sorted members := by
  cases ordered with
  | obj ascending => exact ascending

namespace Json

theorem canonicalItems_eq (items : List Json) : canonicalItems items = items.map canonical := by
  induction items with
  | nil => rfl
  | cons v rest ih => rw [canonicalItems, ih, List.map_cons]

theorem canonicalMembers_eq (members : Members) :
    canonicalMembers members = members.map fun m => (m.1, m.2.canonical) := by
  induction members with
  | nil => rfl
  | cons m rest ih => rw [canonicalMembers, ih, List.map_cons]

theorem ordered_canonical (v : Json) : v.canonical.Ordered := by
  induction v using Json.induct with
  | null => exact .null
  | bool b => exact .bool b
  | num n => exact .num n
  | str s => exact .str s
  | arr items inside =>
    rw [canonical, canonicalItems_eq]
    refine .arr fun v member => ?_
    obtain ⟨w, held, rfl⟩ := List.mem_map.1 member
    exact inside w held
  | obj members inside =>
    rw [canonical, canonicalMembers_eq]
    refine .obj (.ofList _) fun name v member => ?_
    obtain ⟨⟨_, w⟩, held, same⟩ := List.mem_map.1 (Assoc.mem_of_mem_ofList member)
    cases same
    exact inside _ w held

/-- A value whose members are in order is in canonical form. -/
theorem canonical_of_ordered {v : Json} (ordered : v.Ordered) : v.canonical = v := by
  induction ordered with
  | null | bool | num | str => rfl
  | @arr items _ ih => rw [canonical, canonicalItems_eq, (List.map_congr_left ih).trans (List.map_id items)]
  | @obj members ascending _ ih =>
    have same : members.map (fun m => (m.1, m.2.canonical)) = members := by
      refine Eq.trans ?_ (List.map_id members)
      exact List.map_congr_left fun m member => Prod.ext rfl (ih m.1 m.2 member)
    rw [canonical, canonicalMembers_eq, same, Assoc.ofList_of_sorted ascending]

namespace Tree

theorem ofItems_eq (items : List Json) : ofItems items = items.map ofJson := by
  induction items with
  | nil => rfl
  | cons v rest ih => rw [ofItems, ih, List.map_cons]

theorem ofMembers_eq (members : Members) : ofMembers members = members.map fun m => (m.1, ofJson m.2) := by
  induction members with
  | nil => rfl
  | cons m rest ih => rw [ofMembers, ih, List.map_cons]

theorem itemValues?_eq (items : List Tree) : itemValues? items = items.mapM value? := by
  induction items with
  | nil => rfl
  | cons t rest ih => rw [itemValues?, List.mapM_cons, ih]

theorem memberValues?_eq (members : List (String × Tree)) :
    memberValues? members = members.mapM fun m => m.2.value?.map fun v => (m.1, v) := by
  induction members with
  | nil => rfl
  | cons m rest ih =>
    rw [memberValues?, List.mapM_cons, ih]
    cases m.2.value? <;> rfl

/-- The value of the tree of a value is the value in canonical form. -/
theorem value?_ofJson (v : Json) : (ofJson v).value? = some v.canonical := by
  induction v using Json.induct with
  | null | bool b | num n | str s => rfl
  | arr items inside =>
    have each : ∀ v ∈ items, (value? ∘ ofJson) v = some v.canonical := inside
    rw [ofJson, value?, itemValues?_eq, ofItems_eq, List.mapM_map, mapM_eq_some_map each, canonical,
      canonicalItems_eq]
    rfl
  | obj members inside =>
    have each : ∀ m ∈ members, (ofJson m.2).value?.map (fun v => (m.1, v)) = some (m.1, m.2.canonical) := by
      intro m member
      rw [inside m.1 m.2 member]
      rfl
    have values := mapM_eq_some_map each
    rw [ofJson, value?, memberValues?_eq, ofMembers_eq, List.mapM_map, canonical, canonicalMembers_eq]
    exact congrArg (Option.map fun ms => Json.obj (Assoc.ofList ms)) values

/-- A property holds of every tree if each tree inherits it from its items and members. -/
theorem induct {P : Tree → Prop} (null : P .null) (bool : ∀ b, P (.bool b)) (num : ∀ n, P (.num n))
    (str : ∀ s, P (.str s)) (arr : ∀ items, (∀ t ∈ items, P t) → P (.arr items))
    (obj : ∀ members, (∀ name t, (name, t) ∈ members → P t) → P (.obj members)) (unreadable : P .unreadable) :
    ∀ t, P t
  | .null => null
  | .bool b => bool b
  | .num n => num n
  | .str s => str s
  | .arr items => arr items fun t _ => induct null bool num str arr obj unreadable t
  | .obj members => obj members fun _ t _ => induct null bool num str arr obj unreadable t
  | .unreadable => unreadable
termination_by t => sizeOf t
decreasing_by
  · have smaller := List.sizeOf_lt_of_mem ‹t ∈ items›
    simp only [Tree.arr.sizeOf_spec]
    omega
  · have smaller := List.sizeOf_lt_of_mem ‹_ ∈ members›
    simp only [Tree.obj.sizeOf_spec, Prod.mk.sizeOf_spec] at smaller ⊢
    omega

/-- The value of a tree is in canonical form. -/
theorem ordered_of_value? {t : Tree} {v : Json} (read : t.value? = some v) : v.Ordered := by
  induction t using Tree.induct generalizing v with
  | null =>
    cases read
    exact .null
  | bool b =>
    cases read
    exact .bool b
  | num n =>
    cases read
    exact .num n
  | str s =>
    cases read
    exact .str s
  | arr items inside =>
    obtain ⟨values, itemsRead, rfl⟩ := Option.map_eq_some_iff.1 read
    refine .arr fun v member => ?_
    rw [itemValues?_eq] at itemsRead
    obtain ⟨t, held, value⟩ := exists_of_mapM itemsRead member
    exact inside t held value
  | obj members inside =>
    obtain ⟨values, membersRead, rfl⟩ := Option.map_eq_some_iff.1 read
    refine .obj (.ofList _) fun name v member => ?_
    rw [memberValues?_eq] at membersRead
    obtain ⟨m, held, read⟩ := exists_of_mapM membersRead (Assoc.mem_of_mem_ofList member)
    obtain ⟨_, value, ⟨⟩⟩ := Option.map_eq_some_iff.1 read
    exact inside m.1 m.2 held value
  | unreadable => cases read

theorem eq_null_of_value? {t : Tree} (read : t.value? = some .null) : t = .null := by
  cases t with
  | null => rfl
  | arr items =>
    obtain ⟨_, _, same⟩ := Option.map_eq_some_iff.1 read
    cases same
  | obj members =>
    obtain ⟨_, _, same⟩ := Option.map_eq_some_iff.1 read
    cases same
  | _ => cases read

end Tree

end Json

end DocSchema
