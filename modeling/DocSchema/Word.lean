/-!
# Words

Integers have no bound here. Where a format keeps them in a word of 64 or 32 bits, these are the bounds.
-/

namespace DocSchema.Word

/-- Integers of 64 unsigned bits lie below. -/
def unsignedBound : Nat := UInt64.size

/-- Integers of 32 unsigned bits lie below. -/
def shortBound : Nat := UInt32.size

/-- Integers of 64 signed bits lie below, and not below its negative. -/
def signedBound : Nat := unsignedBound / 2

/-- The integer has 64 signed bits. -/
def FitsSigned (i : Int) : Prop :=
  -(signedBound : Int) ≤ i ∧ i < signedBound

instance (i : Int) : Decidable (FitsSigned i) :=
  inferInstanceAs (Decidable (_ ∧ _))

end DocSchema.Word
