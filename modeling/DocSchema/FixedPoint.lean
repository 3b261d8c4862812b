import DocSchema.Binary64.Basic
import DocSchema.Word

/-!
# Fixed-point decimals

A fixed-point decimal has a coefficient of at most 96 bits and at most 28 decimal places. A binary64 number
is converted in steps that halve or multiply by five, so the coefficient may lose its last digits on the way;
the way back adds whole and fractional part in binary64 arithmetic.

This is the arithmetic behind the numeric scale of section 10.3 of the specification; `fixedPoint` in
`Coercion` applies it.
-/

namespace DocSchema

/-- The number `± coefficient / 10 ^ places`. -/
structure FixedPoint where
  negative : Bool
  coefficient : Nat
  places : Nat
deriving DecidableEq, Repr

namespace FixedPoint

def coefficientBound : Nat := Nat.pow 2 96

def maxPlaces : Nat := 28

/-- Divide `coefficient · 10 ^ exponent` by `2 ^ steps`, halving where that is exact and else multiplying
by five below the decimal point as long as the coefficient has room. -/
def halveSteps : Nat → Nat × Int → Nat × Int
  | 0, s => s
  | n + 1, (coefficient, exponent) =>
    if coefficient % 2 = 0 then halveSteps n (coefficient / 2, exponent + 1)
    else if coefficient * 5 < coefficientBound then halveSteps n (coefficient * 5, exponent)
    else halveSteps n (coefficient / 2, exponent + 1)

/-- Multiply by `2 ^ steps`, doubling as long as the coefficient has room and else dividing by five. -/
def doubleSteps : Nat → Nat × Int → Option (Nat × Int)
  | 0, s => some s
  | n + 1, (coefficient, exponent) =>
    if coefficient < coefficientBound / 2 then doubleSteps n (coefficient * 2, exponent - 1)
    else if (n + 1 : Nat) < exponent * 2 then none
    else doubleSteps n (coefficient / 5, exponent)

/-- Division by ten, a remainder of five or more going up. -/
def dropDigit (coefficient : Nat) : Nat :=
  coefficient / 10 + (if 5 ≤ coefficient % 10 then 1 else 0)

/-- Drop places beyond the allowed number; a coefficient that vanishes leaves no place. -/
def dropPlaces : Nat → Nat × Nat → Nat × Nat
  | 0, s => s
  | n + 1, (coefficient, places) =>
    if coefficient / 10 = 0 then (0, 0) else dropPlaces n (dropDigit coefficient, places - 1)

/-- Drop places until the coefficient fits the significand of a binary64 number. -/
def fitSignificand (coefficient : Nat) : Nat → Nat × Nat
  | 0 => (coefficient, 0)
  | places + 1 =>
    if Binary64.leadingBit ≤ coefficient then fitSignificand (dropDigit coefficient) places
    else (coefficient, places + 1)

def stripZeros (coefficient : Nat) : Nat → Nat × Nat
  | 0 => (coefficient, 0)
  | places + 1 =>
    if coefficient % 10 = 0 then stripZeros (coefficient / 10) places else (coefficient, places + 1)

/-- The fixed-point form of a number, or `none` if it does not fit. -/
def ofBinary64? (x : Binary64) : Option FixedPoint := do
  if x.isZero then return ⟨false, 0, 0⟩
  let (coefficient, exponent) ←
    match x.exponent with
    | .ofNat n => doubleSteps n (x.significand, x.exponent)
    | .negSucc n => some (halveSteps (n + 1) (x.significand, x.exponent))
  let scaled := coefficient * Nat.pow 10 exponent.toNat
  if coefficientBound ≤ scaled then none
  else
    let places := (-exponent).toNat
    let (coefficient, places) := dropPlaces (places - maxPlaces) (scaled, places)
    let (coefficient, places) := fitSignificand coefficient places
    let (coefficient, places) := stripZeros coefficient places
    return ⟨x.negative, coefficient, places⟩

/-- Round to at most `places` places, a half going to the even neighbour. -/
def round (d : FixedPoint) (places : Nat) : FixedPoint :=
  if d.places ≤ places then d
  else
    let q : Fraction := ⟨d.coefficient, Nat.pow 10 (d.places - places)⟩
    ⟨d.negative, q.roundHalfEven, places⟩

/-- Without trailing zeros; zero has no sign and no places. -/
def normalize (d : FixedPoint) : FixedPoint :=
  if d.coefficient = 0 then ⟨false, 0, 0⟩
  else
    let (coefficient, places) := stripZeros d.coefficient d.places
    ⟨d.negative, coefficient, places⟩

/-- The integer, if there are no places and it fits 64 signed bits. -/
def toInt64? (d : FixedPoint) : Option Int :=
  let i : Int := if d.negative then -(d.coefficient : Int) else d.coefficient
  if d.places = 0 ∧ Word.FitsSigned i then some i else none

/-- The whole part, then the fractional part, then their sum, each rounded to binary64; the sum is cleaned
by rounding it to the decimal's own places. -/
def toBinary64? (d : FixedPoint) : Option Binary64 := do
  let power := Nat.pow 10 d.places
  let whole ← Binary64.nearest d.negative (.ofNat (d.coefficient / power))
  let unit ← Binary64.nearest false (.ofNat power)
  let part ← Binary64.nearest false (.ofNat (d.coefficient % power))
  let part ← Binary64.nearest false (part.magnitude.div unit.magnitude)
  if part.isZero then return whole
  let sum ← Binary64.nearest false (whole.magnitude.add part.magnitude)
  let scaled ← Binary64.nearest false (sum.magnitude.mul unit.magnitude)
  let rounded ← Binary64.nearest false (.ofNat scaled.magnitude.roundHalfUp)
  Binary64.nearest d.negative (rounded.magnitude.div unit.magnitude)

end FixedPoint

end DocSchema
