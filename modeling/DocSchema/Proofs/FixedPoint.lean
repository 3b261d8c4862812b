import DocSchema.Proofs.Binary64.ReadBack
import DocSchema.Proofs.Validation.Idempotence

/-!
# Rounding to whole numbers

At scale zero a float becomes an integer, unless it has no fixed-point form or is a whole number that does not fit
64 bits. The first kind stays as it is, and so does the second: it is written out in full by the conversion and read
back as the same float. So rounding a second time changes nothing.
-/

namespace DocSchema

/-- What is at most `n` is rounded to at most `n`. -/
theorem Fraction.roundHalfEven_le {q : Fraction} {n : Nat} (positive : 0 < q.den) (bound : q.num ≤ n * q.den) :
    q.roundHalfEven ≤ n := by
  have floor : q.num / q.den ≤ n := Nat.div_le_of_le_mul (by rwa [Nat.mul_comm])
  have whole : q.num / q.den = n → q.num % q.den = 0 := by
    intro same
    have split := Nat.div_add_mod q.num q.den
    rw [same, Nat.mul_comm] at split
    omega
  unfold roundHalfEven Fraction.floor
  dsimp only
  split
  · exact floor
  · next half =>
    have below : q.num / q.den ≠ n := by
      intro same
      rw [whole same] at half
      omega
    split
    · omega
    · split <;> omega

namespace FixedPoint

section Bounds

variable {bound coefficient places : Nat}

/-- Dividing by a power of two keeps a bound: each step multiplies what the pair stands for by at most five. -/
theorem halveSteps_le {steps shift : Nat} (room : steps ≤ shift)
    (below : coefficient * 5 ^ steps ≤ bound * 10 ^ shift) :
    ∃ c k : Nat, halveSteps steps (coefficient, -(shift : Int)) = (c, -(k : Int)) ∧ c ≤ bound * 10 ^ k := by
  induction steps generalizing coefficient shift with
  | zero => exact ⟨coefficient, shift, rfl, by simpa using below⟩
  | succ steps ih =>
    obtain ⟨shift, rfl⟩ : ∃ k, shift = k + 1 := ⟨shift - 1, by omega⟩
    have up : -((shift + 1 : Nat) : Int) + 1 = -(shift : Int) := by omega
    have halved : coefficient / 2 * 5 ^ steps ≤ bound * 10 ^ shift := by
      have twice : coefficient / 2 * 2 ≤ coefficient := Nat.div_mul_le_self coefficient 2
      have scaled : coefficient / 2 * 5 ^ steps * 10 ≤ bound * 10 ^ shift * 10 :=
        calc coefficient / 2 * 5 ^ steps * 10 = coefficient / 2 * 2 * 5 ^ (steps + 1) := by ring
          _ ≤ coefficient * 5 ^ (steps + 1) := Nat.mul_le_mul_right _ twice
          _ ≤ bound * 10 ^ (shift + 1) := below
          _ = bound * 10 ^ shift * 10 := by ring
      omega
    rw [halveSteps]
    split
    · rw [up]
      exact ih (by omega) halved
    · split
      · refine ih (by omega) ?_
        calc coefficient * 5 * 5 ^ steps = coefficient * 5 ^ (steps + 1) := by ring
          _ ≤ bound * 10 ^ (shift + 1) := below
      · rw [up]
        exact ih (by omega) halved

theorem dropDigit_le (below : coefficient ≤ bound * 10 ^ (places + 1)) :
    dropDigit coefficient ≤ bound * 10 ^ places := by
  have power : bound * 10 ^ (places + 1) = 10 * (bound * 10 ^ places) := by ring
  rw [power] at below
  unfold dropDigit
  split <;> omega

theorem dropPlaces_le {steps : Nat} (room : steps ≤ places) (below : coefficient ≤ bound * 10 ^ places) :
    (dropPlaces steps (coefficient, places)).1 ≤ bound * 10 ^ (dropPlaces steps (coefficient, places)).2 := by
  induction steps generalizing coefficient places with
  | zero => exact below
  | succ steps ih =>
    obtain ⟨places, rfl⟩ : ∃ p, places = p + 1 := ⟨places - 1, by omega⟩
    rw [dropPlaces]
    split
    · exact Nat.zero_le _
    · exact ih (by omega) (dropDigit_le below)

theorem fitSignificand_le (below : coefficient ≤ bound * 10 ^ places) :
    (fitSignificand coefficient places).1 ≤ bound * 10 ^ (fitSignificand coefficient places).2 := by
  induction places generalizing coefficient with
  | zero => exact below
  | succ places ih =>
    rw [fitSignificand]
    split
    · exact ih (dropDigit_le below)
    · exact below

theorem stripZeros_le (below : coefficient ≤ bound * 10 ^ places) :
    (stripZeros coefficient places).1 ≤ bound * 10 ^ (stripZeros coefficient places).2 := by
  induction places generalizing coefficient with
  | zero => exact below
  | succ places ih =>
    rw [stripZeros]
    split
    · refine ih ?_
      have power : bound * 10 ^ (places + 1) = 10 * (bound * 10 ^ places) := by ring
      omega
    · exact below

end Bounds

/-- Multiplying by a power of two either is exact or runs out of room. -/
theorem doubleSteps_exact {steps coefficient : Nat} {r : Nat × Int}
    (doubled : doubleSteps steps (coefficient, (steps : Int)) = some r) : r = (coefficient * 2 ^ steps, 0) := by
  induction steps generalizing coefficient with
  | zero =>
    cases doubled
    simp
  | succ steps ih =>
    have down : ((steps + 1 : Nat) : Int) - 1 = steps := by omega
    rw [doubleSteps] at doubled
    split at doubled
    · rw [down] at doubled
      rw [ih doubled, Nat.pow_succ, Nat.mul_comm (2 ^ steps), Nat.mul_assoc]
    · rw [if_pos (by omega)] at doubled
      cases doubled

/-- Rounded to no places, a number is whole and within its bound. -/
theorem round_zero {d : FixedPoint} {bound : Nat} (below : d.coefficient ≤ bound * 10 ^ d.places) :
    (d.round 0).places = 0 ∧ (d.round 0).coefficient ≤ bound := by
  unfold round
  split
  · next none =>
    have whole : d.places = 0 := Nat.le_zero.1 none
    rw [whole] at below
    exact ⟨whole, by simpa using below⟩
  · refine ⟨rfl, Fraction.roundHalfEven_le (Nat.pow_pos (by decide)) ?_⟩
    exact below

theorem normalize_whole {d : FixedPoint} (whole : d.places = 0) :
    d.normalize.places = 0 ∧ d.normalize.coefficient = d.coefficient := by
  unfold normalize
  split
  · next zero => exact ⟨rfl, zero.symm⟩
  · rw [whole]
    exact ⟨rfl, rfl⟩

/-- A whole number below `2 ^ 53` fits 64 signed bits. -/
theorem exists_toInt64? {d : FixedPoint} (whole : d.places = 0) (small : d.coefficient < 2 * Binary64.leadingBit) :
    ∃ i, d.toInt64? = some i := by
  have bound : 2 * Binary64.leadingBit = 9007199254740992 := by decide
  have word : (Word.signedBound : Int) = 9223372036854775808 := by decide
  rw [bound] at small
  refine ⟨_, if_pos ⟨whole, ?_⟩⟩
  unfold Word.FitsSigned
  rw [word]
  split <;> omega

/-- The places that a conversion keeps of a decimal. -/
def cut (negative : Bool) (coefficient places : Nat) : FixedPoint :=
  let (coefficient, places) := dropPlaces (places - maxPlaces) (coefficient, places)
  let (coefficient, places) := fitSignificand coefficient places
  let (coefficient, places) := stripZeros coefficient places
  ⟨negative, coefficient, places⟩

theorem cut_le {negative : Bool} {bound coefficient places : Nat} (below : coefficient ≤ bound * 10 ^ places) :
    (cut negative coefficient places).coefficient ≤ bound * 10 ^ (cut negative coefficient places).places :=
  stripZeros_le (fitSignificand_le (dropPlaces_le (Nat.sub_le places maxPlaces) below))

section Conversion

variable {x : Binary64} {d : FixedPoint}

theorem ofBinary64?_eq (nonzero : x.isZero = false) : ofBinary64? x = (do
    let (coefficient, exponent) ←
      match x.exponent with
      | .ofNat n => doubleSteps n (x.significand, x.exponent)
      | .negSucc n => some (halveSteps (n + 1) (x.significand, x.exponent))
    let scaled := coefficient * Nat.pow 10 exponent.toNat
    if coefficientBound ≤ scaled then none else some (cut x.negative scaled (-exponent).toNat)) := by
  unfold ofBinary64?
  rw [nonzero]
  rfl

/-- A number with a fractional part is converted to at most its significand. -/
theorem coefficient_le {n : Nat} (fractional : x.exponent = .negSucc n) (converted : ofBinary64? x = some d) :
    d.coefficient ≤ x.significand * 10 ^ d.places := by
  cases nonzero : x.isZero with
  | true =>
    unfold ofBinary64? at converted
    rw [nonzero] at converted
    cases converted
    exact Nat.zero_le _
  | false =>
    obtain ⟨c, k, halved, below⟩ := halveSteps_le (Nat.le_refl (n + 1))
      (Nat.mul_le_mul_left x.significand (Nat.pow_le_pow_left (by decide : 5 ≤ 10) (n + 1)))
    have shift : x.exponent = -((n + 1 : Nat) : Int) := fractional
    rw [ofBinary64?_eq nonzero] at converted
    simp only [fractional, Option.bind_eq_bind, Option.bind_some] at converted
    rw [← fractional, shift, halved] at converted
    have up : (-(k : Int)).toNat = 0 := by omega
    have down : (-(-(k : Int))).toNat = k := by omega
    simp only [up, down] at converted
    split at converted
    · cases converted
    · cases converted
      exact cut_le (by simpa using below)

/-- A number without a fractional part is converted exactly, if at all. -/
theorem ofBinary64?_whole {n : Nat} (whole : x.exponent = .ofNat n) (nonzero : x.isZero = false)
    (converted : ofBinary64? x = some d) : d = ⟨x.negative, x.significand * 2 ^ n, 0⟩ := by
  rw [ofBinary64?_eq nonzero, whole] at converted
  obtain ⟨r, doubled, converted⟩ := Option.bind_eq_some_iff.1 converted
  cases doubleSteps_exact doubled
  dsimp only at converted
  split at converted
  · cases converted
  · cases converted
    exact congrArg (FixedPoint.mk x.negative · 0) (Nat.mul_one _)

/-- Written out in full, a number is read back. -/
theorem toBinary64?_whole {n : Nat} (whole : x.exponent = .ofNat n) (nonzero : x.isZero = false) :
    toBinary64? ⟨x.negative, x.significand * 2 ^ n, 0⟩ = some x := by
  have significand : x.significand ≠ 0 := by simpa [Binary64.isZero] using nonzero
  have read : Binary64.nearest x.negative (.ofNat (x.significand * 2 ^ n / 1)) = some x := by
    refine Binary64.nearest_of_value Nat.one_ne_zero significand ?_
    rw [Fraction.value_ofNat, Binary64.magnitudeValue, whole, Nat.div_one]
    push_cast
    rfl
  have unit : ∃ one, Binary64.nearest false (.ofNat 1) = some one := ⟨_, by rfl⟩
  obtain ⟨one, unit⟩ := unit
  have part : Binary64.nearest false (.ofNat (x.significand * 2 ^ n % 1)) = some (.zero false) := by
    rw [Nat.mod_one]
    rfl
  unfold toBinary64?
  change (do
    let whole ← Binary64.nearest x.negative (.ofNat (x.significand * 2 ^ n / 1))
    let unit ← Binary64.nearest false (.ofNat 1)
    let part ← Binary64.nearest false (.ofNat (x.significand * 2 ^ n % 1))
    let part ← Binary64.nearest false (part.magnitude.div unit.magnitude)
    if part.isZero then return whole
    let sum ← Binary64.nearest false (whole.magnitude.add part.magnitude)
    let scaled ← Binary64.nearest false (sum.magnitude.mul unit.magnitude)
    let rounded ← Binary64.nearest false (.ofNat scaled.magnitude.roundHalfUp)
    Binary64.nearest x.negative (rounded.magnitude.div unit.magnitude)) = _
  have last : Binary64.nearest false ((Binary64.zero false).magnitude.div one.magnitude) = some (.zero false) :=
    if_pos (Nat.zero_mul _)
  simp only [read, unit, part, last, Option.bind_eq_bind, Option.bind_some]
  rfl

end Conversion

end FixedPoint

namespace Coercion

theorem fixedPoint_zero_eq (x : Binary64) : fixedPoint 0 (.float x) =
    match FixedPoint.ofBinary64? x with
    | none => .num (.float x)
    | some d =>
      match (d.round 0).normalize.toInt64? with
      | some i => .num (.int i)
      | none => .num (.float ((d.round 0).normalize.toBinary64?.getD x)) := rfl

/-- At scale zero a float becomes an integer or stays as it is. -/
theorem fixedPoint_zero_float (x : Binary64) :
    (∃ i, fixedPoint 0 (.float x) = .num (.int i)) ∨ fixedPoint 0 (.float x) = .num (.float x) := by
  rw [fixedPoint_zero_eq]
  cases converted : FixedPoint.ofBinary64? x with
  | none => exact .inr rfl
  | some d =>
    dsimp only
    cases integral : (d.round 0).normalize.toInt64? with
    | some i => exact .inl ⟨i, rfl⟩
    | none =>
      refine .inr ?_
      cases exponent : x.exponent with
      | negSucc n =>
        -- A number with a fractional part is below `2 ^ 53`, and so is what it is rounded to.
        obtain ⟨whole, below⟩ := FixedPoint.round_zero (FixedPoint.coefficient_le exponent converted)
        obtain ⟨places, same⟩ := FixedPoint.normalize_whole whole
        obtain ⟨i, fits⟩ := FixedPoint.exists_toInt64? places (same ▸ Nat.lt_of_le_of_lt below x.stored.1)
        cases fits.symm.trans integral
      | ofNat n =>
        cases nonzero : x.isZero with
        | true =>
          unfold FixedPoint.ofBinary64? at converted
          rw [nonzero] at converted
          cases converted
          cases integral
        | false =>
          cases FixedPoint.ofBinary64?_whole exponent nonzero converted
          have rounded : (FixedPoint.mk x.negative (x.significand * 2 ^ n) 0 |>.round 0).normalize =
              ⟨x.negative, x.significand * 2 ^ n, 0⟩ := by
            have positive : x.significand * 2 ^ n ≠ 0 := by
              have significand : x.significand ≠ 0 := by simpa [Binary64.isZero] using nonzero
              exact Nat.mul_ne_zero significand (Nat.ne_of_gt (Nat.two_pow_pos n))
            exact if_neg positive
          rw [rounded, FixedPoint.toBinary64?_whole exponent nonzero]
          rfl

/-- Rounding to whole numbers leaves alone what it has made of a number. -/
theorem fixedPoint_zero_idempotent : (fixedPoint 0).Idempotent := by
  intro n
  cases n with
  | int i => rfl
  | float x =>
    rcases fixedPoint_zero_float x with ⟨i, whole⟩ | same
    · rw [whole]
      rfl
    · rw [same]
      exact same

end Coercion

end DocSchema
