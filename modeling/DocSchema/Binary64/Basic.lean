/-!
# Finite binary64 numbers

A finite number of the format is `± significand · 2 ^ exponent`, stored in one way only: the significand
has 53 bits, or fewer at the least exponent. Both zeros are kept apart as data and are equal as values.
-/

namespace DocSchema

/-- A non-negative rational number `num / den`; it need not be in lowest terms. -/
structure Fraction where
  num : Nat
  den : Nat
deriving DecidableEq, Repr

namespace Fraction

def ofNat (n : Nat) : Fraction :=
  ⟨n, 1⟩

def add (p q : Fraction) : Fraction :=
  ⟨p.num * q.den + q.num * p.den, p.den * q.den⟩

def mul (p q : Fraction) : Fraction :=
  ⟨p.num * q.num, p.den * q.den⟩

def div (p q : Fraction) : Fraction :=
  ⟨p.num * q.den, p.den * q.num⟩

/-- The quotient by `base ^ exponent`. -/
def scaleDown (q : Fraction) (base : Nat) : Int → Fraction
  | .ofNat n => ⟨q.num, q.den * base.pow n⟩
  | .negSucc n => ⟨q.num * base.pow (n + 1), q.den⟩

def floor (q : Fraction) : Nat :=
  q.num / q.den

/-- The nearest natural number, a half going to the even one. -/
def roundHalfEven (q : Fraction) : Nat :=
  let twice := 2 * (q.num % q.den)
  if twice < q.den then q.floor
  else if q.den < twice then q.floor + 1
  else if q.floor % 2 = 0 then q.floor
  else q.floor + 1

/-- The nearest natural number, a half going up. -/
def roundHalfUp (q : Fraction) : Nat :=
  (2 * q.num + q.den) / (2 * q.den)

end Fraction

namespace Binary64

/-- The first of the 53 bits of a full significand. -/
def leadingBit : Nat := Nat.pow 2 52

/-- The one way in which the format stores `significand · 2 ^ exponent`. -/
def Stored (significand : Nat) (exponent : Int) : Prop :=
  significand < 2 * leadingBit ∧ -1074 ≤ exponent ∧ exponent ≤ 971 ∧
    (exponent = -1074 ∨ leadingBit ≤ significand)

instance (significand : Nat) (exponent : Int) : Decidable (Stored significand exponent) :=
  inferInstanceAs (Decidable (_ ∧ _ ∧ _ ∧ _))

end Binary64

/-- A finite number `± significand · 2 ^ exponent` of the binary64 format. -/
structure Binary64 where
  negative : Bool
  significand : Nat
  exponent : Int
  stored : Binary64.Stored significand exponent
deriving DecidableEq, Repr

namespace Binary64

def zero (negative : Bool) : Binary64 :=
  ⟨negative, 0, -1074, by decide⟩

def ofParts? (negative : Bool) (significand : Nat) (exponent : Int) : Option Binary64 :=
  if h : Stored significand exponent then some ⟨negative, significand, exponent, h⟩ else none

def isZero (x : Binary64) : Bool :=
  x.significand = 0

def magnitude (x : Binary64) : Fraction :=
  (Fraction.ofNat x.significand).scaleDown 2 (-x.exponent)

/-- Equality of values: the two zeros are equal. -/
def same (x y : Binary64) : Bool :=
  x = y || (x.isZero && y.isZero)

/-- The exponent at which `q` has a significand of 53 bits, bounded below by the least exponent. -/
def exponentOf (q : Fraction) : Int :=
  let guess : Int := (q.num.log2 : Int) - q.den.log2 - 52
  let exponent := if leadingBit ≤ (q.scaleDown 2 guess).floor then guess else guess - 1
  max exponent (-1074)

/-- The nearest number of the format, a tie going to the even significand; `none` beyond its range. -/
def nearest (negative : Bool) (q : Fraction) : Option Binary64 :=
  if q.num = 0 then some (zero negative)
  else
    let exponent := exponentOf q
    let significand := (q.scaleDown 2 exponent).roundHalfEven
    if significand < 2 * leadingBit then ofParts? negative significand exponent
    else ofParts? negative (significand / 2) (exponent + 1)

theorem same_self (x : Binary64) : x.same x = true := by
  simp [same]

theorem ofParts?_self (x : Binary64) : ofParts? x.negative x.significand x.exponent = some x := by
  simp [ofParts?, x.stored]

end Binary64

end DocSchema
