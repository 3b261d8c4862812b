import DocSchema.Word

/-!
# Decimal digits

Reading runs of ASCII digits as numbers.
-/

namespace DocSchema.Digits

/-- The number that a run of digits stands for. -/
def value (digits : List Char) : Nat :=
  digits.foldl (fun n c => 10 * n + (c.toNat - 48)) 0

/-- A natural number: one digit or more, leading zeros allowed. -/
def nat? (text : List Char) : Option Nat :=
  if !text.isEmpty && text.all Char.isDigit then some (value text) else none

/-- An integer of 64 signed bits, with at most one sign in front. -/
def int64? (text : List Char) : Option Int := do
  let i : Int ←
    match text with
    | '+' :: rest => (nat? rest).map fun n => (n : Int)
    | '-' :: rest => (nat? rest).map fun n => -(n : Int)
    | _ => (nat? text).map fun n => (n : Int)
  if Word.FitsSigned i then some i else none

end DocSchema.Digits
