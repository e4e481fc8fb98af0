import DecimalPattern.Binary64.Arithmetic
import DecimalPattern.Binary64.Logarithm
import DecimalPattern.Format.Word

/-! # Significant digits

The value is rounded where its last significant digit stands, and pad characters are added to the
fraction until enough significant digits are shown.
-/

namespace DecimalPattern

-- Powers of natural numbers are the built-in ones, also beside the monoids of algebra.
attribute [local instance (2000)] instPowNat

/-- Without an upper bound the value is not rounded. -/
def Binary64.roundSignificant? (value : Binary64) : Option Nat → Option Binary64
  | some most => do
    let places ← word? (placesOfCount most - value.leadingPlace)
    value.roundHalfEven? (Int32.ofInt places)
  | none => some value

/-- The digits of a number of which zero has one, a number with an integer part all, and a smaller
one those after the leading zeros. -/
def significantWidth (rounded : Binary64) : Nat :=
  if rounded.isZero then 1
  else if rounded.floor.isZero then (rounded.numeral.fraction.dropWhile (· == '0')).length
  else rounded.floor.numeral.integer.length + rounded.numeral.fraction.length

/-- The digits on either side of the point, at least so many and at most so many significant. -/
def splitSignificant? (value : Binary64) (least : Nat) (most : Option Nat) (pad : Char) :
    Option Numeral := do
  let rounded ← value.abs.roundSignificant? most
  let padding := List.replicate (least - significantWidth rounded) pad
  return ⟨rounded.floor.numeral.integer, rounded.numeral.fraction ++ padding⟩

end DecimalPattern
