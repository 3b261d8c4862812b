import DocSchema.Binary64.Basic

/-!
# Decimal text of binary64 numbers

A decimal reads as the nearest number of the format. A number is written with the fewest digits that read
back as itself, and of those with the digits nearest to it; a tie goes to the even last digit.
-/

namespace DocSchema

/-- The number `coefficient · 10 ^ exponent`. -/
structure Decimal where
  coefficient : Nat
  exponent : Int
deriving DecidableEq, Repr

namespace Decimal

/-- The decimal digits of the coefficient, first digit first. -/
def digits (d : Decimal) : List Char :=
  Nat.toDigits 10 d.coefficient

def stripZeros : Nat → Decimal → Decimal
  | 0, d => d
  | fuel + 1, d =>
    if d.coefficient % 10 = 0 then stripZeros fuel ⟨d.coefficient / 10, d.exponent + 1⟩ else d

/-- The same number with a coefficient that does not end in zero; zero has exponent zero. -/
def normalize (d : Decimal) : Decimal :=
  if d.coefficient = 0 then ⟨0, 0⟩ else stripZeros d.coefficient.log2 d

def fraction (d : Decimal) : Fraction :=
  (Fraction.ofNat d.coefficient).scaleDown 10 (-d.exponent)

end Decimal

namespace Binary64

/-- The nearest number to a normalised decimal. The bounds on the size only spare the arithmetic: a number of
more than 310 digits before the point is out of range, and one below `10 ^ -330` rounds to zero. -/
def ofNormalized? (negative : Bool) (d : Decimal) : Option Binary64 :=
  let size : Int := d.digits.length + d.exponent
  if d.coefficient = 0 then some (zero negative)
  else if 310 < size then none
  else if size < -330 then some (zero negative)
  else nearest negative d.fraction

def ofDecimal? (negative : Bool) (d : Decimal) : Option Binary64 :=
  ofNormalized? negative d.normalize

/-- The number itself, written out in full. -/
def exactDecimal (x : Binary64) : Decimal :=
  match x.exponent with
  | .ofNat n => ⟨x.significand * Nat.pow 2 n, 0⟩
  | .negSucc n => ⟨x.significand * Nat.pow 5 (n + 1), .negSucc n⟩

/-- The exponent of the first decimal digit of a positive fraction. -/
def leadingExponent (q : Fraction) : Int :=
  let guess : Int := (Nat.toDigits 10 q.num).length - (Nat.toDigits 10 q.den).length
  if 1 ≤ (q.scaleDown 10 guess).floor then guess else guess - 1

def readsBack (x : Binary64) (d : Decimal) : Bool :=
  ofDecimal? x.negative d = some x

/-- Of the two neighbours of `x` among the multiples of `10 ^ exponent`, one that reads back as `x`:
the nearer one if both do. -/
def onGrid? (x : Binary64) (exponent : Int) : Option Decimal :=
  let q := x.magnitude.scaleDown 10 exponent
  let below : Decimal := ⟨q.floor, exponent⟩
  let above : Decimal := ⟨q.floor + 1, exponent⟩
  match x.readsBack below, x.readsBack above with
  | true, true => some ⟨q.roundHalfEven, exponent⟩
  | true, false => some below
  | false, true => some above
  | false, false => none

/-- The decimal with the fewest digits that reads back as `x`: seventeen always suffice, so the number
written out in full is never reached. -/
def shortest (x : Binary64) : Decimal :=
  if x.isZero then ⟨0, 0⟩
  else
    let first := leadingExponent x.magnitude
    (((List.range 17).findSome? fun (i : Nat) => x.onGrid? (first - i)).getD x.exactDecimal).normalize

/-- Exponents of the first digit for which a number is written without an exponent part. -/
structure PositionalRange where
  least : Int
  greatest : Int
deriving DecidableEq, Repr

/-- Numbers from `0.00001` up to sixteen digits before the point are written without an exponent part. -/
def positional : PositionalRange :=
  ⟨-5, 15⟩

def zeros (n : Nat) : List Char :=
  List.replicate n '0'

/-- Digits around a point, with at least one digit on each side of it. -/
def positionalText (digits : List Char) : Int → List Char
  | .ofNat n =>
    if digits.length ≤ n + 1 then digits ++ zeros (n + 1 - digits.length) ++ ['.', '0']
    else digits.take (n + 1) ++ '.' :: digits.drop (n + 1)
  | .negSucc n => '0' :: '.' :: (zeros n ++ digits)

/-- One digit before the point, no point after a single digit, and a sign on every exponent. -/
def exponentText (digits : List Char) (exponent : Int) : List Char :=
  let rest := digits.drop 1
  let fractional := if rest.isEmpty then [] else '.' :: rest
  let sign := if exponent < 0 then '-' else '+'
  digits.take 1 ++ fractional ++ 'e' :: sign :: Nat.toDigits 10 exponent.natAbs

def magnitudeText (d : Decimal) : List Char :=
  let exponent : Int := d.exponent + d.digits.length - 1
  if positional.least ≤ exponent ∧ exponent ≤ positional.greatest then
    positionalText d.digits exponent
  else exponentText d.digits exponent

def text (x : Binary64) : List Char :=
  let magnitude := magnitudeText x.shortest
  if x.negative then '-' :: magnitude else magnitude

end Binary64

end DocSchema
