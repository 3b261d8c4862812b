import DocSchema.Proofs.Schema.Entries

/-!
# Texts of places

The text of a path does not tell where the names of its members begin and end, since a name may hold a dot. But no
name holds a brace, so the text of an item tells the text of its collection and its variable, and where the text of
one item begins the text of another place, that place lies below an item with that text.
-/

namespace DocSchema

/-- Two texts that end at their last `c` and go on without one. -/
theorem append_inj_of_last {c : Char} {a b t u : List Char} (endA : a.getLast? = some c) (endB : b.getLast? = some c)
    (freeT : c ∉ t) (freeU : c ∉ u) (same : a ++ t = b ++ u) : a = b ∧ t = u := by
  -- What stands between the two ends belongs to a rest, so it cannot end with the character.
  have longer {x y z : List Char} (last : y.getLast? = some c) (split : y = x ++ z) (free : c ∉ z) : z = [] := by
    rcases List.eq_nil_or_concat z with rfl | ⟨front, d, rfl⟩
    · rfl
    · rw [List.concat_eq_append] at split free
      rw [split, ← List.append_assoc, List.getLast?_concat, Option.some.injEq] at last
      subst last
      exact absurd (List.mem_append_right _ List.mem_cons_self) free
  rcases List.append_eq_append_iff.1 same with ⟨gap, rfl, rfl⟩ | ⟨gap, rfl, rfl⟩
  · have none := longer endB rfl fun member => freeT (List.mem_append_left _ member)
    subst none
    exact ⟨(List.append_nil a).symm, rfl⟩
  · have none := longer endA rfl fun member => freeU (List.mem_append_left _ member)
    subst none
    exact ⟨List.append_nil b, rfl⟩

namespace Path

variable {p q : Path}

/-- The characters of the text of a path. -/
def chars (p : Path) : List Char :=
  p.text.toList

/-- What stands between the text of a path and the next segment. -/
def joint (p : Path) : List Char :=
  if p.isRoot then [] else ['.']

theorem chars_child (p : Path) (s : PathStep) : (p.child s).chars = p.chars ++ (p.joint ++ s.key.segment.toList) := by
  unfold chars text child joint
  rw [List.map_append, List.map_singleton]
  cases steps : p.steps with
  | nil => simp [isRoot, steps]
  | cons first rest =>
    rw [String.intercalate_append_of_ne_nil (by simp) (by simp)]
    simp [isRoot, steps]

theorem joint_child (p : Path) (s : PathStep) : (p.child s).joint = ['.'] := by
  simp [joint, isRoot, child]

theorem chars_item (p : Path) (keyName : String) (type : FieldType) :
    (p.item keyName type).chars = p.chars ++ (p.joint ++ ['\x7b', '\x7b']) ++ (keyName.toList ++ ['\x7d', '\x7d']) := by
  rw [item, chars_child]
  simp [PathStep.placeholder, StepKey.segment]

theorem getLast?_chars_item (p : Path) (keyName : String) (type : FieldType) :
    (p.item keyName type).chars.getLast? = some '\x7d' := by
  rw [chars_item, ← List.append_assoc, List.getLast?_append_of_ne_nil _ (List.cons_ne_nil _ _)]
  rfl

theorem not_mem_joint {c : Char} (reserved : c ∈ reservedCharacters) (p : Path) : c ∉ p.joint := by
  unfold joint
  split
  · exact List.not_mem_nil
  · rintro (_ | ⟨_, ⟨⟩⟩)
    exact absurd reserved (by decide)

end Path

theorem not_mem_of_isSpeakable {name : String} (speakable : IsSpeakable name) {c : Char}
    (reserved : c ∈ reservedCharacters) : c ∉ name.toList :=
  fun member => speakable.2 c member reserved

/-- The text of an item tells the text of its collection, and the variable. -/
theorem Path.item_chars_inj {p q : Path} {key other : String} {type otherType : FieldType}
    (joined : p.joint = ['.']) (otherJoined : q.joint = ['.']) (speakable : IsSpeakable key)
    (otherSpeakable : IsSpeakable other) (same : (p.item key type).chars = (q.item other otherType).chars) :
    p.chars = q.chars ∧ key = other := by
  have openings {a : List Char} : (a ++ ['.', '\x7b', '\x7b']).getLast? = some '\x7b' :=
    List.getLast?_append_of_ne_nil a (List.cons_ne_nil _ _)
  have same : (p.chars ++ ['.', '\x7b', '\x7b']) ++ key.toList =
      (q.chars ++ ['.', '\x7b', '\x7b']) ++ other.toList := by
    rw [chars_item, chars_item, joined, otherJoined] at same
    refine (List.append_left_inj ['\x7d', '\x7d']).1 ?_
    simpa only [List.append_assoc, List.cons_append, List.nil_append] using same
  obtain ⟨collection, named⟩ := append_inj_of_last openings openings
    (not_mem_of_isSpeakable speakable (by decide)) (not_mem_of_isSpeakable otherSpeakable (by decide)) same
  exact ⟨List.append_cancel_right collection, String.toList_injective named⟩

namespace Field

variable {owner : ObjectSchema} {parent : Path} {f : FieldDecl} {item : FieldType}

/-- What a field adds to the text of the place of its model. -/
def tail (parent : Path) (f : FieldDecl) : List Char :=
  parent.joint ++ f.name.toList

theorem chars_pathIn (owner : ObjectSchema) (parent : Path) (f : FieldDecl) :
    (f.pathIn owner parent).chars = parent.chars ++ f.tail parent :=
  Path.chars_child parent _

theorem tail_ne_nil (checked : f.IsChecked owner) : f.tail parent ≠ [] := by
  have filled : f.name.toList ≠ [] := fun empty => checked.named (String.toList_injective empty)
  exact List.append_ne_nil_of_right_ne_nil _ filled

theorem not_mem_tail (checked : f.IsChecked owner) : '\x7d' ∉ f.tail parent := by
  rw [tail, List.mem_append, not_or]
  exact ⟨Path.not_mem_joint (by decide) parent, not_mem_of_isSpeakable checked.isSpeakable (by decide)⟩

/-- No member has the text of an item. -/
theorem getLast?_chars_pathIn (checked : f.IsChecked owner) :
    (f.pathIn owner parent).chars.getLast? ≠ some '\x7d' := by
  intro last
  rw [chars_pathIn, List.getLast?_append_of_ne_nil _ (tail_ne_nil checked)] at last
  exact not_mem_tail checked (List.mem_of_getLast? last)

theorem chars_levelIn_succ (n : Nat) : (f.levelIn owner parent item (n + 1)).chars =
    ((f.levelIn owner parent item n).item (KeyName.level f.keyVariable n) item).chars ++
      f.tail ((f.levelIn owner parent item n).item (KeyName.level f.keyVariable n) item) :=
  Path.chars_child _ _

theorem joint_pathIn : (f.pathIn owner parent).joint = ['.'] :=
  Path.joint_child parent _

theorem joint_levelIn (n : Nat) : (f.levelIn owner parent item n).joint = ['.'] := by
  cases n with
  | zero => exact Path.joint_child parent _
  | succ n => exact Path.joint_child _ _

theorem chars_prefix_levelIn (owner : ObjectSchema) (parent : Path) (f : FieldDecl) (item : FieldType) (n : Nat) :
    parent.chars <+: (f.levelIn owner parent item n).chars := by
  induction n with
  | zero => exact chars_pathIn owner parent f ▸ List.prefix_append _ _
  | succ n ih =>
    rw [chars_levelIn_succ, Path.chars_item, List.append_assoc, List.append_assoc]
    exact ih.trans (List.prefix_append _ _)

end Field

/-- An item above a member is the model of the member, or lies above it. -/
theorem Path.prefix_of_member {p q : Path} {keyName : String} {type : FieldType} {s : PathStep}
    (literal : s.isPlaceholder = false) (above : (p.item keyName type).steps <+: (q.child s).steps) :
    (p.item keyName type).steps <+: q.steps := by
  refine (List.prefix_concat_iff.1 above).resolve_left fun equal => ?_
  have last := congrArg List.getLast? equal
  rw [item, child, List.getLast?_concat, List.getLast?_concat, Option.some.injEq] at last
  subst last
  cases literal

/-- What is met below a base has a text that begins with the text of the base. -/
theorem Visited.chars_prefix {levels : Nat} {schema owner : ObjectSchema} {base parent : Path} {region : Region}
    (visited : Visited levels schema base region owner parent) : base.chars <+: parent.chars := by
  induction visited with
  | schema => exact List.prefix_rfl
  | object _ _ _ ih =>
    rw [Field.chars_pathIn]
    exact ih.trans (List.prefix_append _ _)
  | item _ _ _ _ ih =>
    rw [Path.chars_item, Field.chars_pathIn, List.append_assoc, List.append_assoc]
    exact ih.trans (List.prefix_append _ _)
  | level _ _ _ _ _ ih =>
    rw [Path.chars_item, List.append_assoc]
    exact (ih.trans (Field.chars_prefix_levelIn _ _ _ _ _)).trans (List.prefix_append _ _)

end DocSchema
