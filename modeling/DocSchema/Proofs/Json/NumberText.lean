import DocSchema.Json.Text
import DocSchema.Json.Token
import DocSchema.Proofs.Binary64.ReadBack
import DocSchema.Proofs.Digits

/-!
# Texts of numbers

The text of a float is spelled as a numeral that denotes the float, so different floats have different texts. An
integer is written without a point and without an exponent, and no float is: different numbers have different texts.
-/

namespace DocSchema

namespace Json

namespace Numeral

/-- The parts of a numeral as they are written: a point before the fraction, and a sign on every exponent. -/
def spelled (whole : List Char) (fractional : Option (List Char)) (exponent : Option Int) : List Char :=
  whole ++ ((fractional.map fun digits => '.' :: digits).getD [] ++
    (exponent.map fun e => 'e' :: (if e < 0 then '-' else '+') :: Nat.toDigits 10 e.natAbs).getD [])

/-- Digits before the point, without a leading zero if there are several. -/
def IsWhole (digits : List Char) : Prop :=
  digits ≠ [] ∧ (∀ c ∈ digits, c.isDigit = true) ∧ ¬ (1 < digits.length ∧ digits.head? = some '0')

def IsFractional (digits : List Char) : Prop :=
  digits ≠ [] ∧ ∀ c ∈ digits, c.isDigit = true

theorem isFractional_toDigits (n : Nat) : IsFractional (Nat.toDigits 10 n) :=
  ⟨Nat.toDigits_ne_nil, Digits.isDigit_of_mem_toDigits⟩

/-- A run of digits ends where something else begins. -/
theorem digits?_append {digits rest : List Char} (run : IsFractional digits)
    (stop : ∀ c later, rest = c :: later → c.isDigit = false) :
    digits? (digits ++ rest) = some (digits, rest) := by
  obtain ⟨filled, all⟩ := run
  have taken : rest.takeWhile Char.isDigit = [] := by
    cases rest with
    | nil => rfl
    | cons c later => simp [stop c later rfl]
  have dropped : rest.dropWhile Char.isDigit = rest := by
    cases rest with
    | nil => rfl
    | cons c later => simp [stop c later rfl]
  simp only [digits?, List.takeWhile_append_of_pos all, List.dropWhile_append_of_pos all, taken, dropped,
    List.append_nil]
  rw [if_neg]
  simpa using filled

theorem digits?_self {digits : List Char} (run : IsFractional digits) : digits? digits = some (digits, []) := by
  have whole : digits? (digits ++ []) = some (digits, []) := digits?_append run nofun
  rwa [List.append_nil] at whole

/-- An exponent is read with its sign. -/
theorem exponent?_signed (e : Int) :
    exponent? ((if e < 0 then '-' else '+') :: Nat.toDigits 10 e.natAbs) = some e := by
  have read : exponent?.unsigned (Nat.toDigits 10 e.natAbs) = some (e.natAbs : Int) := by
    unfold exponent?.unsigned
    rw [digits?_self (isFractional_toDigits _)]
    exact congrArg (fun n : Nat => some (n : Int)) (Digits.value_toDigits _)
  split
  · next below =>
    change (exponent?.unsigned _).map (- ·) = _
    rw [read, Option.map_some]
    congr 1
    omega
  · next above =>
    change exponent?.unsigned _ = _
    rw [read]
    congr 1
    omega

/-- A numeral is read as the parts that it is spelled with. -/
theorem ofUnsigned?_spelled {whole : List Char} {fractional : Option (List Char)} (start : IsWhole whole)
    (run : ∀ digits, fractional = some digits → IsFractional digits) (negative : Bool) (exponent : Option Int) :
    ofUnsigned? negative (spelled whole fractional exponent) =
      some ⟨negative, whole, fractional, exponent⟩ := by
  obtain ⟨filled, all, unpadded⟩ := start
  unfold ofUnsigned? spelled
  cases fractional with
  | none =>
    cases exponent with
    | none =>
      rw [digits?_append ⟨filled, all⟩ (by rintro c later empty; simp at empty)]
      simp [unpadded]
    | some e =>
      rw [digits?_append ⟨filled, all⟩ (by rintro c later ⟨⟩; rfl)]
      simp [unpadded, exponent?_signed]
  | some digits =>
    have run := run digits rfl
    cases exponent with
    | none =>
      rw [digits?_append ⟨filled, all⟩ (by rintro c later ⟨⟩; rfl)]
      simp [unpadded, digits?_self run]
    | some e =>
      rw [digits?_append ⟨filled, all⟩ (by rintro c later ⟨⟩; rfl)]
      have inner : digits? (digits ++ 'e' :: (if e < 0 then '-' else '+') :: Nat.toDigits 10 e.natAbs) =
          some (digits, 'e' :: (if e < 0 then '-' else '+') :: Nat.toDigits 10 e.natAbs) :=
        digits?_append run (by rintro c later ⟨⟩; rfl)
      simp [unpadded, inner, exponent?_signed]

/-- A sign stands in front of a negative number only. -/
theorem ofText?_spelled {whole : List Char} {fractional : Option (List Char)} (start : IsWhole whole)
    (run : ∀ digits, fractional = some digits → IsFractional digits) (negative : Bool) (exponent : Option Int) :
    ofText? (if negative then '-' :: spelled whole fractional exponent else spelled whole fractional exponent) =
      some ⟨negative, whole, fractional, exponent⟩ := by
  cases negative with
  | true => exact ofUnsigned?_spelled start run true exponent
  | false =>
    rw [← ofUnsigned?_spelled start run false exponent, if_neg Bool.false_ne_true]
    obtain ⟨filled, all, -⟩ := start
    obtain ⟨c, rest, rfl⟩ := List.exists_cons_of_ne_nil filled
    change ofText? (c :: _) = ofUnsigned? false (c :: _)
    unfold ofText?
    split
    · next text signed =>
      have digit := all c List.mem_cons_self
      cases signed
      cases digit
    · rfl

theorem isDigit_of_mem_zeros {n : Nat} : ∀ c ∈ Binary64.zeros n, c.isDigit = true := by
  intro c member
  rw [List.eq_of_mem_replicate member]
  rfl

/-- A run of digits that does not begin with a zero stands before a point. -/
theorem isWhole_of_head {digits : List Char} (run : IsFractional digits) (head : digits.head? ≠ some '0') :
    IsWhole digits :=
  ⟨run.1, run.2, fun padded => head padded.2⟩

theorem isFractional_zero : IsFractional ['0'] :=
  ⟨List.cons_ne_nil _ _, List.forall_mem_singleton.2 rfl⟩

/-- A single digit stands before a point, also a zero. -/
theorem isWhole_singleton {c : Char} (digit : c.isDigit = true) : IsWhole [c] :=
  ⟨List.cons_ne_nil _ _, List.forall_mem_singleton.2 digit, fun padded => absurd padded.1 (Nat.lt_irrefl 1)⟩

theorem isWhole_toDigits (n : Nat) : IsWhole (Nat.toDigits 10 n) := by
  cases n with
  | zero => exact isWhole_singleton rfl
  | succ n => exact isWhole_of_head (isFractional_toDigits _) (Digits.head?_toDigits_ne_zero n.succ_pos)

end Numeral

end Json

namespace Binary64

open Json.Numeral

/-- The text is spelled as a numeral with a fraction or an exponent, and the numeral stands for the decimal. -/
def IsSpelled (text : List Char) (d : Decimal) : Prop :=
  ∃ whole fractional exponent, text = spelled whole fractional exponent ∧ IsWhole whole ∧
    (∀ digits, fractional = some digits → IsFractional digits) ∧
    (fractional.isSome = true ∨ exponent.isSome = true) ∧
    ∀ negative, (Json.Numeral.mk negative whole fractional exponent).decimal.value = d.value

variable {d : Decimal}

theorem isFractional_digits (d : Decimal) : IsFractional d.digits :=
  isFractional_toDigits d.coefficient

theorem value_digits (d : Decimal) : Digits.value d.digits = d.coefficient :=
  Digits.value_toDigits d.coefficient

/-- The point stands after all digits and some zeros. -/
theorem isSpelled_zeros_point (positive : 0 < d.coefficient) {k : Nat} (places : d.exponent = k) :
    IsSpelled (d.digits ++ zeros k ++ ['.', '0']) d := by
  obtain ⟨filled, all⟩ := isFractional_digits d
  refine ⟨d.digits ++ zeros k, some ['0'], none, by simp [spelled], ?_, ?_, .inl rfl, fun negative => ?_⟩
  · refine isWhole_of_head ⟨List.append_ne_nil_of_left_ne_nil filled _, ?_⟩ ?_
    · exact List.forall_mem_append.2 ⟨all, isDigit_of_mem_zeros⟩
    · rw [List.head?_append_of_ne_nil _ filled]
      exact Digits.head?_toDigits_ne_zero positive
  · rintro digits ⟨⟩
    exact isFractional_zero
  · have padded : Digits.value (d.digits ++ zeros k ++ ['0']) = 10 ^ (k + 1) * d.coefficient := by
      rw [← value_digits, ← Digits.value_append_zeros, List.append_assoc, List.replicate_succ']
      rfl
    simp only [decimal, Option.getD_some, Option.getD_none, padded, Decimal.value, places]
    push_cast
    rw [zpow_natCast]
    norm_num
    ring

/-- The point stands between the digits. -/
theorem isSpelled_point_between (positive : 0 < d.coefficient) {n : Nat}
    (places : d.exponent + d.digits.length - 1 = n) (long : ¬ d.digits.length ≤ n + 1) :
    IsSpelled (d.digits.take (n + 1) ++ '.' :: d.digits.drop (n + 1)) d := by
  obtain ⟨filled, all⟩ := isFractional_digits d
  refine ⟨d.digits.take (n + 1), some (d.digits.drop (n + 1)), none, by simp [spelled], ?_, ?_, .inl rfl,
    fun negative => ?_⟩
  · refine isWhole_of_head ⟨by simpa using filled, fun c member => all c (List.mem_of_mem_take member)⟩ ?_
    rw [List.head?_take, if_neg (Nat.succ_ne_zero n)]
    exact Digits.head?_toDigits_ne_zero positive
  · rintro digits ⟨⟩
    refine ⟨?_, fun c member => all c (List.mem_of_mem_drop member)⟩
    rw [ne_eq, List.drop_eq_nil_iff]
    omega
  · have split : d.digits.take (n + 1) ++ d.digits.drop (n + 1) = d.digits := List.take_append_drop _ _
    have exponent : (0 : Int) - (d.digits.drop (n + 1)).length = d.exponent := by
      rw [List.length_drop]
      omega
    simp only [decimal, Option.getD_some, Option.getD_none, split, value_digits, exponent, Decimal.value]

/-- The point stands before all digits and some zeros. -/
theorem isSpelled_point_zeros {n : Nat} (places : d.exponent + d.digits.length - 1 = .negSucc n) :
    IsSpelled ('0' :: '.' :: (zeros n ++ d.digits)) d := by
  obtain ⟨filled, all⟩ := isFractional_digits d
  refine ⟨['0'], some (zeros n ++ d.digits), none, by simp [spelled], isWhole_singleton rfl, ?_, .inl rfl,
    fun negative => ?_⟩
  · rintro digits ⟨⟩
    exact ⟨List.append_ne_nil_of_right_ne_nil _ filled, List.forall_mem_append.2 ⟨isDigit_of_mem_zeros, all⟩⟩
  · have padded : Digits.value (['0'] ++ (zeros n ++ d.digits)) = d.coefficient :=
      (Digits.value_zeros_append (n + 1) d.digits).trans (value_digits d)
    have exponent : (0 : Int) - (zeros n ++ d.digits).length = d.exponent := by
      rw [List.length_append, zeros, List.length_replicate]
      omega
    simp only [decimal, Option.getD_some, Option.getD_none, padded, exponent, Decimal.value]

theorem isSpelled_positionalText (positive : 0 < d.coefficient) :
    IsSpelled (positionalText d.digits (d.exponent + d.digits.length - 1)) d := by
  cases places : d.exponent + d.digits.length - 1 with
  | ofNat n =>
    rw [Int.ofNat_eq_natCast] at places
    unfold positionalText
    dsimp only
    split
    · exact isSpelled_zeros_point positive (by omega)
    · next long => exact isSpelled_point_between positive places long
  | negSucc n => exact isSpelled_point_zeros places

theorem isSpelled_exponentText :
    IsSpelled (exponentText d.digits (d.exponent + d.digits.length - 1)) d := by
  obtain ⟨filled, all⟩ := isFractional_digits d
  have value := value_digits d
  obtain ⟨c, rest, digits⟩ : ∃ c rest, d.digits = c :: rest := List.exists_cons_of_ne_nil filled
  have start : IsWhole [c] := isWhole_singleton (all c (digits ▸ List.mem_cons_self))
  rw [digits] at value ⊢
  unfold exponentText
  cases rest with
  | nil =>
    refine ⟨[c], none, some d.exponent, by simp [spelled], start, nofun, .inr rfl, fun negative => ?_⟩
    simp [decimal, value, Decimal.value]
  | cons next later =>
    refine ⟨[c], some (next :: later), some (d.exponent + (c :: next :: later).length - 1), by simp [spelled], start,
      ?_, .inl rfl, fun negative => ?_⟩
    · rintro _ ⟨⟩
      exact ⟨List.cons_ne_nil _ _, fun c member => all c (digits ▸ List.mem_cons_of_mem _ member)⟩
    · have exponent : d.exponent + ((c :: next :: later).length : Int) - 1 - (next :: later).length = d.exponent := by
        simp only [List.length_cons]
        omega
      simp only [decimal, Option.getD_some, List.singleton_append, value, exponent, Decimal.value]

theorem isSpelled_magnitudeText (normal : d.IsNormal) : IsSpelled (magnitudeText d) d := by
  by_cases zero : d.coefficient = 0
  · obtain ⟨coefficient, exponent⟩ := d
    rcases normal with ⟨⟨⟩, ⟨⟩⟩ | ends
    · refine ⟨['0'], some ['0'], none, by decide, isWhole_singleton rfl, ?_, .inl rfl, fun negative => ?_⟩
      · rintro digits ⟨⟩
        exact isFractional_zero
      · simp [decimal, Digits.value, Decimal.value]
    · cases zero
      exact absurd rfl ends
  · have positive := Nat.pos_of_ne_zero zero
    unfold magnitudeText
    dsimp only
    split
    · exact isSpelled_positionalText positive
    · exact isSpelled_exponentText

/-- The text of a number is read as a numeral with a fraction or an exponent that denotes the number. -/
theorem exists_ofText?_text (x : Binary64) :
    ∃ n, Json.Numeral.ofText? x.text = some n ∧ (n.fractional.isSome = true ∨ n.exponent.isSome = true) ∧
      ofDecimal? n.negative n.decimal = some x := by
  obtain ⟨whole, fractional, exponent, magnitude, start, run, pointed, value⟩ :=
    isSpelled_magnitudeText (isNormal_shortest x)
  refine ⟨⟨x.negative, whole, fractional, exponent⟩, ?_, pointed, ?_⟩
  · rw [← ofText?_spelled start run, ← magnitude]
    rfl
  · have normal := Decimal.IsNormal.eq_of_value (Decimal.isNormal_normalize _) (isNormal_shortest x)
      ((Decimal.value_normalize _).trans (value x.negative))
    rw [ofDecimal?, normal]
    exact ofNormalized?_shortest x

end Binary64

namespace Json

theorem ofText?_intText (i : Int) :
    Numeral.ofText? (intText i) = some ⟨decide (i < 0), Nat.toDigits 10 i.natAbs, none, none⟩ := by
  have spelling : intText i = if decide (i < 0) then '-' :: Numeral.spelled (Nat.toDigits 10 i.natAbs) none none
      else Numeral.spelled (Nat.toDigits 10 i.natAbs) none none := by
    cases i <;> simp [intText, Numeral.spelled, Int.negSucc_lt_zero]
  rw [spelling]
  exact Numeral.ofText?_spelled (Numeral.isWhole_toDigits _) (by rintro _ ⟨⟩) _ _

/-- Different numbers have different texts. -/
theorem numberText_injective {m n : Number} (same : numberText m = numberText n) : m = n := by
  -- A text is read as one numeral, which has a point or an exponent only if the number is a float.
  have read : Numeral.ofText? (numberText m) = Numeral.ofText? (numberText n) := congrArg _ same
  cases m with
  | int i =>
    cases n with
    | int j =>
      rw [numberText, numberText, ofText?_intText, ofText?_intText, Option.some.injEq] at read
      obtain ⟨sign, digits, -, -⟩ := Numeral.mk.inj read
      have size := Digits.toDigits_injective digits
      rw [decide_eq_decide] at sign
      congr 1
      omega
    | float y =>
      obtain ⟨numeral, text, pointed, -⟩ := Binary64.exists_ofText?_text y
      rw [numberText, numberText, ofText?_intText, text] at read
      cases read
      simp at pointed
  | float x =>
    obtain ⟨numeral, text, pointed, denoted⟩ := Binary64.exists_ofText?_text x
    cases n with
    | int j =>
      rw [numberText, numberText, ofText?_intText, text] at read
      cases read
      simp at pointed
    | float y =>
      obtain ⟨other, otherText, -, otherDenoted⟩ := Binary64.exists_ofText?_text y
      rw [numberText, numberText, text, otherText] at read
      cases read
      rw [denoted] at otherDenoted
      cases otherDenoted
      rfl

end Json

end DocSchema
