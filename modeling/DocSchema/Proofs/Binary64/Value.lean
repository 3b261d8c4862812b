import DocSchema.Binary64.Decimal
import Mathlib.Algebra.Order.Field.Power
import Mathlib.Algebra.Order.Field.Rat
import Mathlib.Tactic.FieldSimp
import Mathlib.Tactic.Linarith
import Mathlib.Tactic.NormNum
import Mathlib.Tactic.Positivity
import Mathlib.Tactic.Ring

/-!
# Values of fractions, decimals and binary64 numbers

What fractions and decimals stand for, as rational numbers. A decimal has one normal form: its coefficient does not
end in zero, and zero has exponent zero. Rounding a fraction that is a number of the format gives that number.
-/

namespace DocSchema

namespace Fraction

/-- The rational number that a fraction stands for. -/
def value (q : Fraction) : ℚ :=
  q.num / q.den

theorem value_ofNat (n : Nat) : (ofNat n).value = n := by
  simp [value, ofNat]

theorem value_scaleDown (q : Fraction) (base : Nat) (exponent : Int) :
    (q.scaleDown base exponent).value = q.value / (base : ℚ) ^ exponent := by
  cases exponent with
  | ofNat n =>
    have power : ((base.pow n : Nat) : ℚ) = (base : ℚ) ^ n := Nat.cast_pow base n
    simp only [scaleDown, value, Nat.cast_mul, power, Int.ofNat_eq_natCast, zpow_natCast, div_div]
  | negSucc n =>
    have power : ((base.pow (n + 1) : Nat) : ℚ) = (base : ℚ) ^ (n + 1) := Nat.cast_pow base (n + 1)
    simp only [scaleDown, value, Nat.cast_mul, power, zpow_negSucc, div_inv_eq_mul]
    ring

theorem den_scaleDown_pos {q : Fraction} {base : Nat} (start : 0 < q.den) (positive : 0 < base)
    (exponent : Int) : 0 < (q.scaleDown base exponent).den := by
  cases exponent with
  | ofNat n => exact Nat.mul_pos start (Nat.pow_pos positive)
  | negSucc n => exact start

/-- Natural numbers up to the floor are those up to the value. -/
theorem le_floor_iff {q : Fraction} (positive : 0 < q.den) (n : Nat) : n ≤ q.floor ↔ (n : ℚ) ≤ q.value := by
  have den : (0 : ℚ) < q.den := Nat.cast_pos.2 positive
  rw [floor, Nat.le_div_iff_mul_le positive, value, le_div_iff₀ den]
  exact_mod_cast Iff.rfl

/-- A fraction that is a natural number is rounded to it. -/
theorem roundHalfEven_of_value {q : Fraction} (positive : 0 < q.den) {n : Nat} (same : q.value = n) :
    q.roundHalfEven = n := by
  have den : (q.den : ℚ) ≠ 0 := Nat.cast_ne_zero.2 (Nat.ne_of_gt positive)
  have whole : q.num = n * q.den := by
    rw [value, div_eq_iff den] at same
    exact_mod_cast same
  have rest : q.num % q.den = 0 := by
    rw [whole, Nat.mul_mod_left]
  have quotient : q.num / q.den = n := by
    rw [whole, Nat.mul_div_cancel n positive]
  simp only [roundHalfEven, rest, floor, quotient, Nat.mul_zero, if_pos positive]

end Fraction

namespace Decimal

/-- The rational number that a decimal stands for. -/
def value (d : Decimal) : ℚ :=
  d.coefficient * (10 : ℚ) ^ d.exponent

/-- The one way to write a number without zeros at the end. -/
def IsNormal (d : Decimal) : Prop :=
  d.coefficient = 0 ∧ d.exponent = 0 ∨ d.coefficient % 10 ≠ 0

theorem value_fraction (d : Decimal) : d.fraction.value = d.value := by
  rw [fraction, Fraction.value_scaleDown, Fraction.value_ofNat, value, zpow_neg, div_inv_eq_mul]
  rfl

/-- A zero at the end of the coefficient is a power of ten. -/
theorem value_strip {d : Decimal} (ends : d.coefficient % 10 = 0) :
    value ⟨d.coefficient / 10, d.exponent + 1⟩ = d.value := by
  have whole : d.coefficient = 10 * (d.coefficient / 10) := (Nat.mul_div_cancel' (Nat.dvd_of_mod_eq_zero ends)).symm
  have cast : (d.coefficient : ℚ) = 10 * ((d.coefficient / 10 : Nat) : ℚ) := by exact_mod_cast whole
  rw [value, value, cast, zpow_add_one₀ (by norm_num)]
  ring

theorem value_stripZeros (fuel : Nat) (d : Decimal) : (stripZeros fuel d).value = d.value := by
  induction fuel generalizing d with
  | zero => rfl
  | succ fuel ih =>
    rw [stripZeros]
    split
    · next ends => rw [ih, value_strip ends]
    · rfl

theorem value_normalize (d : Decimal) : d.normalize.value = d.value := by
  rw [normalize]
  split
  · next zero => simp [value, zero]
  · exact value_stripZeros _ d

/-- Each step takes a decimal digit from the coefficient, which has fewer of them than binary ones. -/
theorem stripZeros_mod_ne_zero {fuel : Nat} {d : Decimal} (positive : 0 < d.coefficient)
    (enough : d.coefficient < 2 ^ (fuel + 1)) : (stripZeros fuel d).coefficient % 10 ≠ 0 := by
  induction fuel generalizing d with
  | zero =>
    rw [stripZeros]
    omega
  | succ fuel ih =>
    rw [stripZeros]
    split
    · next ends =>
      refine ih (d := ⟨d.coefficient / 10, d.exponent + 1⟩) ?_ ?_
      · change 0 < d.coefficient / 10
        omega
      · change d.coefficient / 10 < 2 ^ (fuel + 1)
        rw [Nat.pow_succ] at enough
        omega
    · next ends => exact ends

theorem isNormal_normalize (d : Decimal) : d.normalize.IsNormal := by
  rw [normalize]
  split
  · exact .inl ⟨rfl, rfl⟩
  · next nonzero => exact .inr (stripZeros_mod_ne_zero (Nat.pos_of_ne_zero nonzero) Nat.lt_log2_self)

/-- Of two equal numbers in normal form, the one with the smaller exponent has as many zeros more. -/
theorem exponent_le_of_value_eq {a b : Decimal} (ends : a.coefficient % 10 ≠ 0) (same : a.value = b.value) :
    b.exponent ≤ a.exponent := by
  by_contra less
  obtain ⟨k, shift⟩ : ∃ k : Nat, b.exponent = a.exponent + (k + 1 : Nat) :=
    ⟨(b.exponent - a.exponent - 1).toNat, by omega⟩
  have power : (10 : ℚ) ^ a.exponent ≠ 0 := zpow_ne_zero _ (by norm_num)
  have coefficients : (a.coefficient : ℚ) = (b.coefficient * 10 ^ (k + 1) : Nat) := by
    rw [value, value, shift, zpow_add₀ (by norm_num), zpow_natCast, mul_comm ((10 : ℚ) ^ a.exponent),
      ← mul_assoc] at same
    have cancelled := mul_right_cancel₀ power same
    rw [cancelled]
    push_cast
    rfl
  have whole : a.coefficient = b.coefficient * 10 ^ (k + 1) := by exact_mod_cast coefficients
  rw [whole, Nat.pow_succ, ← Nat.mul_assoc, Nat.mul_mod_left] at ends
  exact ends rfl

/-- Decimals in normal form are equal if their values are. -/
theorem IsNormal.eq_of_value {a b : Decimal} (first : a.IsNormal) (second : b.IsNormal)
    (same : a.value = b.value) : a = b := by
  have power : ∀ e : Int, (10 : ℚ) ^ e ≠ 0 := fun e => zpow_ne_zero e (by norm_num)
  obtain ⟨m, e⟩ := a
  obtain ⟨n, f⟩ := b
  rcases first with ⟨zero, start⟩ | ends
  · cases zero
    cases start
    rcases second with ⟨zero, start⟩ | ends
    · cases zero
      cases start
      rfl
    · have zero : n = 0 := by simpa [value, power, eq_comm] using same
      rw [zero] at ends
      exact absurd rfl ends
  · rcases second with ⟨zero, start⟩ | otherEnds
    · cases zero
      have zero : m = 0 := by simpa [value, power] using same
      rw [zero] at ends
      exact absurd rfl ends
    · have exponents : e = f :=
        Int.le_antisymm (exponent_le_of_value_eq otherEnds same.symm) (exponent_le_of_value_eq ends same)
      cases exponents
      have coefficients : (m : ℚ) = n := mul_right_cancel₀ (power e) same
      rw [Nat.cast_inj.1 coefficients]

end Decimal

namespace Binary64

/-- The size of the number, as a rational number. -/
def magnitudeValue (x : Binary64) : ℚ :=
  x.significand * (2 : ℚ) ^ x.exponent

theorem value_exactDecimal (x : Binary64) : x.exactDecimal.value = x.magnitudeValue := by
  have two : (2 : ℚ) ≠ 0 := by norm_num
  unfold exactDecimal magnitudeValue Decimal.value
  split
  · next n exponent =>
    rw [exponent]
    push_cast
    simp
  · next n exponent =>
    rw [exponent, zpow_negSucc, zpow_negSucc]
    have factors : (10 : ℚ) ^ (n + 1) = 5 ^ (n + 1) * 2 ^ (n + 1) := by
      rw [← mul_pow]
      norm_num
    have power : ((Nat.pow 5 (n + 1) : Nat) : ℚ) = 5 ^ (n + 1) := Nat.cast_pow 5 (n + 1)
    rw [factors, Nat.cast_mul, power]
    field_simp

end Binary64

end DocSchema
