import DocSchema.Proofs.Binary64.Value

/-!
# Reading back binary64 numbers

The decimal with which a number is written reads back as the number. A decimal found on a grid was tested for it;
the number written out in full is the number itself, and the nearest number to it can only be that.
-/

namespace DocSchema

namespace Decimal

/-- The value lies between the powers of ten that its number of digits tells. -/
theorem value_bounds {d : Decimal} (positive : 0 < d.coefficient) :
    (10 : ℚ) ^ ((d.digits.length : Int) + d.exponent - 1) ≤ d.value ∧
      d.value < (10 : ℚ) ^ ((d.digits.length : Int) + d.exponent) := by
  have ten : (10 : ℚ) ≠ 0 := by norm_num
  have power : (0 : ℚ) < (10 : ℚ) ^ d.exponent := zpow_pos (by norm_num) _
  obtain ⟨count, length⟩ : ∃ count, d.digits.length = count + 1 :=
    ⟨d.digits.length - 1, (Nat.succ_pred_eq_of_pos Nat.length_toDigits_pos).symm⟩
  have below : d.coefficient < 10 ^ (count + 1) :=
    (Nat.length_toDigits_le_iff (by decide) (Nat.succ_pos count)).1 (Nat.le_of_eq length)
  have above : 10 ^ count ≤ d.coefficient := by
    cases count with
    | zero => exact positive
    | succ k =>
      by_contra less
      have shorter := (Nat.length_toDigits_le_iff (by decide) (Nat.succ_pos k)).2 (Nat.not_le.1 less)
      rw [digits] at length
      omega
  rw [value, length]
  constructor
  · rw [show ((count + 1 : Nat) : Int) + d.exponent - 1 = count + d.exponent by push_cast; ring,
      zpow_add₀ ten, zpow_natCast]
    exact mul_le_mul_of_nonneg_right (by exact_mod_cast above) power.le
  · rw [zpow_add₀ ten, zpow_natCast]
    exact mul_lt_mul_of_pos_right (by exact_mod_cast below) power

end Decimal

namespace Binary64

theorem two_pow_52 : ((leadingBit : Nat) : ℚ) = (2 : ℚ) ^ (52 : Int) := by
  norm_num [leadingBit]

/-- Values of full significands at different exponents do not overlap. -/
theorem le_of_significand_bounds {v : ℚ} {e f : Int} (below : v < 2 ^ (53 : Int) * 2 ^ e)
    (above : (2 : ℚ) ^ (52 : Int) * 2 ^ f ≤ v) : f ≤ e := by
  have powers : (2 : ℚ) ^ (52 + f) < 2 ^ (53 + e) := by
    rw [zpow_add₀ (by norm_num), zpow_add₀ (by norm_num)]
    exact above.trans_lt below
  have less := (zpow_lt_zpow_iff_right₀ (by norm_num : (1 : ℚ) < 2)).1 powers
  omega

/-- At the guessed exponent the value has about 53 bits. -/
theorem guess_bounds {q : Fraction} (num : q.num ≠ 0) (den : q.den ≠ 0) :
    let guess : Int := (q.num.log2 : Int) - q.den.log2 - 52
    (2 : ℚ) ^ (51 : Int) * 2 ^ guess ≤ q.value ∧ q.value < 2 ^ (53 : Int) * 2 ^ guess := by
  intro guess
  have two : (2 : ℚ) ≠ 0 := by norm_num
  have denPos : (0 : ℚ) < q.den := Nat.cast_pos.2 (Nat.pos_of_ne_zero den)
  have numLow : (2 : ℚ) ^ (q.num.log2 : Int) ≤ q.num := by
    rw [zpow_natCast]
    exact_mod_cast Nat.log2_self_le num
  have numHigh : (q.num : ℚ) < 2 ^ ((q.num.log2 : Int) + 1) := by
    rw [show ((q.num.log2 : Int) + 1) = ((q.num.log2 + 1 : Nat) : Int) by push_cast; ring, zpow_natCast]
    exact_mod_cast Nat.lt_log2_self
  have denLow : (2 : ℚ) ^ (q.den.log2 : Int) ≤ q.den := by
    rw [zpow_natCast]
    exact_mod_cast Nat.log2_self_le den
  have denHigh : (q.den : ℚ) < 2 ^ ((q.den.log2 : Int) + 1) := by
    rw [show ((q.den.log2 : Int) + 1) = ((q.den.log2 + 1 : Nat) : Int) by push_cast; ring, zpow_natCast]
    exact_mod_cast Nat.lt_log2_self
  rw [← zpow_add₀ two, ← zpow_add₀ two, Fraction.value, le_div_iff₀ denPos, div_lt_iff₀ denPos]
  constructor
  · calc (2 : ℚ) ^ (51 + guess) * q.den
        ≤ 2 ^ (51 + guess) * 2 ^ ((q.den.log2 : Int) + 1) :=
          mul_le_mul_of_nonneg_left denHigh.le (zpow_pos (by norm_num) _).le
      _ = 2 ^ (q.num.log2 : Int) := by
          rw [← zpow_add₀ two]
          congr 1
          omega
      _ ≤ q.num := numLow
  · calc (q.num : ℚ) < 2 ^ ((q.num.log2 : Int) + 1) := numHigh
      _ = 2 ^ (53 + guess) * 2 ^ (q.den.log2 : Int) := by
          rw [← zpow_add₀ two]
          congr 1
          omega
      _ ≤ 2 ^ (53 + guess) * q.den :=
          mul_le_mul_of_nonneg_left denLow (zpow_pos (by norm_num) _).le

/-- The exponent of a value is the one at which it has a full significand, bounded below. -/
theorem exists_exponentOf {q : Fraction} (num : q.num ≠ 0) (den : q.den ≠ 0) :
    ∃ e : Int, exponentOf q = max e (-1074) ∧ (2 : ℚ) ^ (52 : Int) * 2 ^ e ≤ q.value ∧
      q.value < 2 ^ (53 : Int) * 2 ^ e := by
  obtain ⟨low, high⟩ := guess_bounds num den
  unfold exponentOf
  dsimp only at low high ⊢
  generalize (q.num.log2 : Int) - q.den.log2 - 52 = guess at low high ⊢
  have power : (0 : ℚ) < 2 ^ guess := zpow_pos (by norm_num) _
  have test : leadingBit ≤ (q.scaleDown 2 guess).floor ↔ (2 : ℚ) ^ (52 : Int) * 2 ^ guess ≤ q.value := by
    rw [Fraction.le_floor_iff (Fraction.den_scaleDown_pos (Nat.pos_of_ne_zero den) (by decide) guess),
      Fraction.value_scaleDown, two_pow_52]
    exact le_div_iff₀ power
  split
  · next full => exact ⟨guess, rfl, test.1 full, high⟩
  · next short =>
    have below := not_le.1 (mt test.2 short)
    refine ⟨guess - 1, rfl, ?_, ?_⟩
    · rw [zpow_sub_one₀ (by norm_num)]
      calc (2 : ℚ) ^ (52 : Int) * (2 ^ guess * 2⁻¹) = 2 ^ (51 : Int) * 2 ^ guess := by norm_num; ring
        _ ≤ q.value := low
    · rw [zpow_sub_one₀ (by norm_num)]
      calc q.value < (2 : ℚ) ^ (52 : Int) * 2 ^ guess := below
        _ = 2 ^ (53 : Int) * (2 ^ guess * 2⁻¹) := by norm_num; ring

variable {x : Binary64}

theorem exponentOf_of_value {q : Fraction} (den : q.den ≠ 0) (nonzero : x.significand ≠ 0)
    (same : q.value = x.magnitudeValue) : exponentOf q = x.exponent := by
  obtain ⟨small, least, -, full⟩ := x.stored
  have power : (0 : ℚ) < 2 ^ x.exponent := zpow_pos (by norm_num) _
  have num : q.num ≠ 0 := by
    intro zero
    have positive : (0 : ℚ) < x.magnitudeValue :=
      mul_pos (Nat.cast_pos.2 (Nat.pos_of_ne_zero nonzero)) power
    rw [← same, Fraction.value, zero] at positive
    simp at positive
  obtain ⟨e, exponent, low, high⟩ := exists_exponentOf num den
  have above : e ≤ x.exponent := by
    refine le_of_significand_bounds (v := q.value) ?_ low
    rw [same, magnitudeValue]
    refine mul_lt_mul_of_pos_right ?_ power
    calc (x.significand : ℚ) < (2 * leadingBit : Nat) := by exact_mod_cast small
      _ = 2 ^ (53 : Int) := by norm_num [leadingBit]
  rw [exponent]
  rcases full with bottom | full
  · rw [bottom] at above ⊢
    exact max_eq_right above
  · have below : x.exponent ≤ e := by
      refine le_of_significand_bounds (v := q.value) high ?_
      rw [same, magnitudeValue, ← two_pow_52]
      exact mul_le_mul_of_nonneg_right (by exact_mod_cast full) power.le
    rw [le_antisymm above below]
    exact max_eq_left least

/-- A fraction that is a number of the format is rounded to that number. -/
theorem nearest_of_value {q : Fraction} (den : q.den ≠ 0) (nonzero : x.significand ≠ 0)
    (same : q.value = x.magnitudeValue) : nearest x.negative q = some x := by
  have power : (2 : ℚ) ^ x.exponent ≠ 0 := zpow_ne_zero _ (by norm_num)
  have num : q.num ≠ 0 := by
    intro zero
    have value : x.magnitudeValue = 0 := by
      rw [← same, Fraction.value, zero]
      simp
    have significand : (x.significand : ℚ) = 0 := (mul_eq_zero.1 value).resolve_right power
    exact nonzero (Nat.cast_eq_zero.1 significand)
  have significand : (q.scaleDown 2 x.exponent).roundHalfEven = x.significand := by
    have positive := Fraction.den_scaleDown_pos (q := q) (Nat.pos_of_ne_zero den) (by decide : 0 < 2) x.exponent
    refine Fraction.roundHalfEven_of_value positive ?_
    rw [Fraction.value_scaleDown, same, magnitudeValue]
    exact mul_div_cancel_right₀ _ power
  unfold nearest
  simp only [num, exponentOf_of_value den nonzero same, significand, if_pos x.stored.1, if_false]
  exact ofParts?_self x

theorem two_zpow_1024_le : (2 : ℚ) ^ (1024 : Int) ≤ 10 ^ (310 : Int) := by
  have powers : 2 ^ 1024 ≤ 10 ^ 310 := by decide +kernel
  exact_mod_cast powers

theorem ten_zpow_neg_330_le : (10 : ℚ) ^ (-330 : Int) ≤ 2 ^ (-1074 : Int) := by
  have powers : 2 ^ 1074 ≤ 10 ^ 330 := by decide +kernel
  rw [zpow_neg, zpow_neg]
  refine inv_anti₀ (by positivity) ?_
  exact_mod_cast powers

/-- All numbers of the format are within the bounds that spare the arithmetic. -/
theorem ofNormalized?_of_value {d : Decimal} (nonzero : x.significand ≠ 0)
    (same : d.value = x.magnitudeValue) : ofNormalized? x.negative d = some x := by
  obtain ⟨small, least, greatest, -⟩ := x.stored
  have power : (0 : ℚ) < 2 ^ x.exponent := zpow_pos (by norm_num) _
  have significand : (1 : ℚ) ≤ x.significand := by exact_mod_cast Nat.pos_of_ne_zero nonzero
  have positive : 0 < d.coefficient := by
    refine Nat.pos_of_ne_zero fun zero => ?_
    have value : x.magnitudeValue = 0 := by
      rw [← same, Decimal.value, zero]
      simp
    have absurdity : (0 : ℚ) < x.magnitudeValue := mul_pos (by linarith) power
    linarith
  obtain ⟨low, high⟩ := Decimal.value_bounds positive
  rw [same] at low high
  have lower : (2 : ℚ) ^ (-1074 : Int) ≤ x.magnitudeValue :=
    calc (2 : ℚ) ^ (-1074 : Int) ≤ 2 ^ x.exponent := zpow_le_zpow_right₀ (by norm_num) least
      _ ≤ x.significand * 2 ^ x.exponent := le_mul_of_one_le_left power.le significand
  have upper : x.magnitudeValue < (2 : ℚ) ^ (1024 : Int) :=
    calc x.magnitudeValue < (2 : ℚ) ^ (53 : Int) * 2 ^ x.exponent := by
          refine mul_lt_mul_of_pos_right ?_ power
          calc (x.significand : ℚ) < (2 * leadingBit : Nat) := by exact_mod_cast small
            _ = 2 ^ (53 : Int) := by norm_num [leadingBit]
      _ ≤ (2 : ℚ) ^ (53 : Int) * 2 ^ (971 : Int) :=
          mul_le_mul_of_nonneg_left (zpow_le_zpow_right₀ (by norm_num) greatest) (by positivity)
      _ = 2 ^ (1024 : Int) := by rw [← zpow_add₀ (by norm_num)]; norm_num
  have inRange : ¬ 310 < (d.digits.length : Int) + d.exponent := by
    intro long
    have ten : (10 : ℚ) ^ (310 : Int) ≤ (10 : ℚ) ^ ((d.digits.length : Int) + d.exponent - 1) :=
      zpow_le_zpow_right₀ (by norm_num) (by omega)
    exact lt_irrefl _ (upper.trans_le (two_zpow_1024_le.trans (ten.trans low)))
  have noUnderflow : ¬ (d.digits.length : Int) + d.exponent < -330 := by
    intro short
    have ten : (10 : ℚ) ^ ((d.digits.length : Int) + d.exponent) ≤ (10 : ℚ) ^ (-330 : Int) :=
      zpow_le_zpow_right₀ (by norm_num) (by omega)
    exact lt_irrefl _ (high.trans_le (ten.trans (ten_zpow_neg_330_le.trans lower)))
  have den : d.fraction.den ≠ 0 :=
    Nat.ne_of_gt (Fraction.den_scaleDown_pos Nat.one_pos (by decide) _)
  unfold ofNormalized?
  dsimp only
  rw [if_neg (Nat.ne_of_gt positive), if_neg inRange, if_neg noUnderflow]
  exact nearest_of_value den nonzero ((Decimal.value_fraction d).trans same)

/-- What is found on a grid reads back, also the nearer one of two. -/
theorem readsBack_of_onGrid? {d : Decimal} {exponent : Int} (found : x.onGrid? exponent = some d) :
    x.readsBack d = true := by
  unfold onGrid? at found
  dsimp only at found
  split at found
  · next below above =>
    cases found
    unfold Fraction.roundHalfEven
    dsimp only
    repeat' split
    all_goals assumption
  · next below _ =>
    cases found
    exact below
  · next above =>
    cases found
    exact above
  · cases found

theorem isNormal_shortest (x : Binary64) : x.shortest.IsNormal := by
  unfold shortest
  split
  · exact .inl ⟨rfl, rfl⟩
  · exact Decimal.isNormal_normalize _

/-- The decimal of a number reads back as the number. -/
theorem ofNormalized?_shortest (x : Binary64) : ofNormalized? x.negative x.shortest = some x := by
  unfold shortest
  split
  · next isZero =>
    have significand : x.significand = 0 := by simpa [Binary64.isZero] using isZero
    obtain ⟨negative, _, exponent, stored⟩ := x
    cases significand
    obtain ⟨-, -, -, bottom | full⟩ := stored
    · cases bottom
      rfl
    · exact absurd full (by decide)
  · next nonzero =>
    have significand : x.significand ≠ 0 := by simpa [Binary64.isZero] using nonzero
    dsimp only
    cases found : (List.range 17).findSome? fun (i : Nat) => x.onGrid? (leadingExponent x.magnitude - i) with
    | some d =>
      obtain ⟨i, -, grid⟩ := List.exists_of_findSome?_eq_some found
      have reads := readsBack_of_onGrid? grid
      exact of_decide_eq_true reads
    | none =>
      refine ofNormalized?_of_value significand ?_
      rw [Option.getD_none, Decimal.value_normalize, value_exactDecimal]

end Binary64

end DocSchema
