import DocSchema.Proofs.Digits
import DocSchema.Schema.KeyName
import Mathlib.Data.List.Infix
import Mathlib.Tactic.Ring

/-!
# Markers in key names

A key name is checked without its markers and used with its markers replaced. Both are one substitution, which takes
the markers from left to right and looks at no part of a name twice. So what the check has found out about the rest of
a name holds for the names of all levels, and a level can be told from its name.
-/

namespace DocSchema

/-- The second text is the first one with the occurrences of a pattern replaced from left to right: the leftmost one is
replaced, and the search goes on behind it. -/
inductive Replaced (pattern replacement : List Char) : List Char → List Char → Prop
  | rest {text : List Char} (free : ¬ pattern <:+: text) : Replaced pattern replacement text text
  | first {before after result : List Char}
      (leftmost : ∀ front back, before ++ pattern ++ after = front ++ pattern ++ back → before.length ≤ front.length)
      (later : Replaced pattern replacement after result) :
      Replaced pattern replacement (before ++ pattern ++ after) (before ++ replacement ++ result)

/-- A character at which no occurrence begins stays. -/
theorem Replaced.cons {pattern replacement text result : List Char} {c : Char} (start : ¬ pattern <+: c :: text)
    (replaced : Replaced pattern replacement text result) : Replaced pattern replacement (c :: text) (c :: result) := by
  cases replaced with
  | rest free =>
    refine .rest fun occurs => ?_
    rcases List.infix_cons_iff.1 occurs with here | later
    · exact start here
    · exact free later
  | @first before after result leftmost later =>
    refine @first pattern replacement (c :: before) after result (fun front back split => ?_) later
    cases front with
    | nil => exact absurd ⟨back, split.symm⟩ start
    | cons d front => exact Nat.succ_le_succ (leftmost front back (List.cons.inj split).2)

/-- A name that path texts can hold. -/
def IsSpeakable (name : String) : Prop :=
  name ≠ "" ∧ ∀ c ∈ name.toList, c ∉ reservedCharacters

/-- A name without fault is one that path texts can hold. -/
theorem NameFault.ofName?_eq_none_iff {name : String} : ofName? name.toList = none ↔ IsSpeakable name := by
  unfold ofName?
  split
  · next empty =>
    refine iff_of_false nofun fun speakable => speakable.1 ?_
    exact String.toList_eq_nil_iff.1 (List.isEmpty_iff.1 empty)
  · next filled =>
    have named : name ≠ "" := fun empty => filled (by rw [empty]; rfl)
    rw [Option.map_eq_none_iff, List.find?_eq_none, IsSpeakable, and_iff_right named]
    simp only [List.contains_iff_mem]

namespace KeyName

/-- The text that stands for the number of a level. -/
def marker : List Char :=
  ['{', 'i', '}']

/-! ## One substitution -/

theorem not_marker_prefix_iff {c : Char} {rest : List Char} :
    ¬ marker <+: c :: rest ↔ ∀ back, c = '{' → rest = 'i' :: '}' :: back → False := by
  constructor
  · rintro start back rfl rfl
    exact start ⟨back, rfl⟩
  · rintro other ⟨back, split⟩
    cases split
    exact other back rfl rfl

theorem hasMarker_iff {name : List Char} : hasMarker name = true ↔ marker <:+: name := by
  fun_induction hasMarker name with
  | case1 => simp [marker]
  | case2 rest => exact iff_of_true rfl ⟨[], rest, rfl⟩
  | case3 c rest other ih =>
    rw [ih, List.infix_cons_iff, or_iff_right]
    exact not_marker_prefix_iff.2 other

/-- A name without markers stays as it is. -/
theorem substitute_of_plain {name : List Char} (plain : hasMarker name = false) (replacement : List Char) :
    substitute replacement name = name := by
  fun_induction hasMarker name with
  | case1 => rfl
  | case2 => cases plain
  | case3 c rest other ih =>
    rw [substitute, ih plain]
    exact other

/-- What stands before the leftmost marker stays, and behind it the substitution starts again. -/
theorem substitute_leftmost {before after : List Char}
    (leftmost : ∀ front back, before ++ marker ++ after = front ++ marker ++ back → before.length ≤ front.length)
    (replacement : List Char) :
    substitute replacement (before ++ marker ++ after) = before ++ replacement ++ substitute replacement after := by
  induction before with
  | nil => rfl
  | cons c before ih =>
    -- A marker that begins at `c` would begin before the leftmost one.
    have start : ¬ marker <+: c :: (before ++ marker ++ after) := by
      rintro ⟨back, split⟩
      exact Nat.not_succ_le_zero _ (leftmost [] back split.symm)
    have later := ih fun front back split =>
      Nat.le_of_succ_le_succ (leftmost (c :: front) back (congrArg (c :: ·) split))
    rw [List.cons_append, List.cons_append, substitute, later]
    · rfl
    · exact not_marker_prefix_iff.1 start

/-- The substitution replaces the markers from left to right. -/
theorem replaced_iff {replacement name result : List Char} :
    Replaced marker replacement name result ↔ result = substitute replacement name := by
  constructor
  · intro replaced
    induction replaced with
    | rest free =>
      have plain := Bool.eq_false_iff.2 (hasMarker_iff.not.2 free)
      exact (substitute_of_plain plain replacement).symm
    | first leftmost later ih => rw [substitute_leftmost leftmost, ih]
  · rintro rfl
    fun_induction substitute replacement name with
    | case1 => exact .rest (by simp [marker])
    | case2 rest ih => exact @Replaced.first _ _ [] rest _ (fun _ _ _ => Nat.zero_le _) ih
    | case3 c rest other ih => exact ih.cons (not_marker_prefix_iff.2 other)

-- What comes together when a marker is taken out is not looked at again, so the check finds the brace in it.
example : substitute [] "\x7b\x7bi\x7di\x7d".toList = marker ∧ fault? "\x7b\x7bi\x7di\x7d" = some (.reserved '{') := by
  decide

/-! ## What a substitution keeps -/

/-- Whatever the markers are replaced by, the rest of the name remains. -/
theorem substitute_nil_sublist (replacement name : List Char) :
    (substitute [] name).Sublist (substitute replacement name) := by
  fun_induction substitute replacement name with
  | case1 => exact List.Sublist.refl _
  | case2 rest ih =>
    rw [substitute]
    exact ih.trans (List.sublist_append_right _ _)
  | case3 c rest other ih =>
    rw [substitute]
    · exact ih.cons_cons c
    · exact other

/-- A character of a substituted name is new or one of the rest. -/
theorem mem_substitute {replacement name : List Char} {c : Char} (member : c ∈ substitute replacement name) :
    c ∈ replacement ∨ c ∈ substitute [] name := by
  fun_induction substitute replacement name with
  | case1 => cases member
  | case2 rest ih =>
    rw [substitute, List.nil_append]
    rcases List.mem_append.1 member with new | later
    · exact .inl new
    · exact ih later
  | case3 d rest other ih =>
    rw [substitute]
    · rcases List.mem_cons.1 member with rfl | later
      · exact .inr List.mem_cons_self
      · exact (ih later).imp_right (List.mem_cons_of_mem d)
    · exact other

/-- The length of a name with its markers replaced. -/
theorem length_substitute (name : List Char) : ∃ markers rest, (hasMarker name = true → 0 < markers) ∧
    ∀ replacement, (substitute replacement name).length = markers * replacement.length + rest := by
  fun_induction substitute [] name with
  | case1 =>
    refine ⟨0, 0, fun marked => ?_, fun replacement => (Nat.zero_mul _).symm⟩
    cases marked
  | case2 tail ih =>
    obtain ⟨markers, rest, -, size⟩ := ih
    refine ⟨markers + 1, rest, fun _ => Nat.succ_pos markers, fun replacement => ?_⟩
    rw [substitute, List.length_append, size]
    ring
  | case3 c tail other ih =>
    obtain ⟨markers, rest, marked, size⟩ := ih
    refine ⟨markers, rest + 1, fun found => marked ?_, fun replacement => ?_⟩
    · rwa [hasMarker] at found
      exact other
    · rw [substitute, List.length_cons, size, Nat.add_assoc]
      exact other

/-- Different replacements of markers give different names. -/
theorem substitute_injective {name first second : List Char} (marked : hasMarker name = true)
    (same : substitute first name = substitute second name) : first = second := by
  -- The lengths of the names tell the lengths of the replacements, and then the first marker tells them apart.
  have long : first.length = second.length := by
    obtain ⟨markers, rest, some, size⟩ := length_substitute name
    have equal := congrArg List.length same
    rw [size, size, Nat.add_right_cancel_iff] at equal
    exact Nat.eq_of_mul_eq_mul_left (some marked) equal
  fun_induction hasMarker name with
  | case1 => cases marked
  | case2 rest =>
    rw [substitute, substitute] at same
    exact (List.append_inj same long).1
  | case3 c rest other ih =>
    rw [substitute, substitute] at same
    · exact ih marked (List.cons.inj same).2
    · exact other
    · exact other

/-! ## The names of the levels -/

variable {name : String}

/-- A name is checked without its markers. -/
theorem fault?_eq_none_iff : fault? name = none ↔ IsSpeakable (String.ofList (substitute [] name.toList)) := by
  rw [← NameFault.ofName?_eq_none_iff, String.toList_ofList]
  rfl

theorem isSpeakable_of_plain (faultless : fault? name = none) (plain : isIndexed name = false) :
    IsSpeakable name := by
  rw [fault?, substitute_of_plain plain] at faultless
  exact NameFault.ofName?_eq_none_iff.1 faultless

theorem isDigit_of_reserved {c : Char} (reserved : c ∈ reservedCharacters) : c.isDigit = false := by
  simp only [reservedCharacters, List.mem_cons, List.not_mem_nil, or_false] at reserved
  rcases reserved with rfl | rfl | rfl | rfl <;> rfl

/-- The digits of a level do no harm to a name. -/
theorem isSpeakable_level (faultless : fault? name = none) (index : Nat) : IsSpeakable (level name index) := by
  obtain ⟨filled, clean⟩ := fault?_eq_none_iff.1 faultless
  refine ⟨fun empty => filled ?_, fun c member reserved => ?_⟩
  · have none : substitute (Nat.toDigits 10 index) name.toList = [] := by
      simpa [level] using congrArg String.toList empty
    have sublist := substitute_nil_sublist (Nat.toDigits 10 index) name.toList
    rw [none, List.sublist_nil] at sublist
    rw [sublist]
  · rw [level, String.toList_ofList] at member
    rcases mem_substitute member with digit | old
    · have isDigit := Digits.isDigit_of_mem_toDigits c digit
      rw [isDigit_of_reserved reserved] at isDigit
      cases isDigit
    · exact clean c (by rwa [String.toList_ofList]) reserved

/-- The levels of an indexed collection have different variables. -/
theorem level_injective (indexed : isIndexed name = true) : Function.Injective (level name) := by
  intro m n same
  have digits := congrArg String.toList same
  rw [level, level, String.toList_ofList, String.toList_ofList] at digits
  exact Digits.toDigits_injective (substitute_injective indexed digits)

theorem replaced_level_iff {index : Nat} {text : String} :
    Replaced marker (toString index).toList name.toList text.toList ↔ text = level name index := by
  rw [replaced_iff, Nat.toString_eq_repr, Nat.toList_repr, level, ← String.toList_inj, String.toList_ofList]

theorem fault?_eq_none_iff_replaced :
    fault? name = none ↔ ∃ rest : String, Replaced marker [] name.toList rest.toList ∧ IsSpeakable rest := by
  rw [fault?_eq_none_iff]
  constructor
  · intro speakable
    exact ⟨_, replaced_iff.2 (String.toList_ofList), speakable⟩
  · rintro ⟨rest, replaced, speakable⟩
    rwa [← replaced_iff.1 replaced, String.ofList_toList]

/-- The names of the levels of a collection. A name with a marker is indexed. It passes the check exactly if
path texts can hold what remains without the markers, and a level takes the name with the digits of its number for the
markers, both times from left to right. Path texts can hold the levels of an indexed name that passes the check, and no
two of its levels have the same name. -/
theorem levels_clean_and_distinct (name : String) :
    (isIndexed name = true ↔ marker <:+: name.toList) ∧
    (fault? name = none ↔ ∃ rest : String, Replaced marker [] name.toList rest.toList ∧ IsSpeakable rest) ∧
    (∀ (index : Nat) (text : String),
      Replaced marker (toString index).toList name.toList text.toList ↔ text = level name index) ∧
    (isIndexed name = true → fault? name = none →
      (∀ index, IsSpeakable (level name index)) ∧ ∀ i j, i ≠ j → level name i ≠ level name j) := by
  refine ⟨hasMarker_iff, fault?_eq_none_iff_replaced, fun index text => replaced_level_iff, ?_⟩
  intro indexed faultless
  exact ⟨isSpeakable_level faultless, fun i j differ => (level_injective indexed).ne differ⟩

/-- A digit between two markers: the levels 1 and 11 have names of the same digit, of different length. -/
theorem betweenMarkers_levels_clean_and_distinct :
    isIndexed "\x7bi\x7d1\x7bi\x7d" = true ∧ fault? "\x7bi\x7d1\x7bi\x7d" = none ∧
      level "\x7bi\x7d1\x7bi\x7d" 1 = "111" ∧ level "\x7bi\x7d1\x7bi\x7d" 11 = "11111" ∧
      (∀ index, IsSpeakable (level "\x7bi\x7d1\x7bi\x7d" index)) ∧
      ∀ i j, i ≠ j → level "\x7bi\x7d1\x7bi\x7d" i ≠ level "\x7bi\x7d1\x7bi\x7d" j := by
  have indexed : isIndexed "\x7bi\x7d1\x7bi\x7d" = true := by decide
  have faultless : fault? "\x7bi\x7d1\x7bi\x7d" = none := by decide
  obtain ⟨-, -, -, levels⟩ := levels_clean_and_distinct "\x7bi\x7d1\x7bi\x7d"
  exact ⟨indexed, faultless, by decide, by decide, levels indexed faultless⟩

end KeyName

end DocSchema
