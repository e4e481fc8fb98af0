import DecimalPattern.Proofs.Binary64.Floor
import DecimalPattern.Proofs.Format.Piece

/-! # Digits without a bound on their counts

The strategies for magnitudes, with whole numbers of any size in place of 32-bit numbers. Wherever
the 32-bit arithmetic has a result it is the one given here. The width of significant digits is one
formula in place of three.
-/

namespace DecimalPattern

-- Powers of natural numbers are the built-in ones, also beside the monoids of algebra.
attribute [local instance (2000)] instPowNat

/-- The digits from the first that is not zero; a numeral of zero has one. -/
def Numeral.significantCount (n : Numeral) : ℕ :=
  max 1 ((n.integer ++ n.fraction).dropWhile (· == '0')).length

/-- The numeral of a rounded magnitude with padding up to some significant digits. -/
def paddedNumeral (rounded : Magnitude) (least : ℕ) (pad : Char) : Numeral :=
  { rounded.numeral with
    fraction := rounded.numeral.fraction ++
      List.replicate (least - rounded.numeral.significantCount) pad }

namespace Magnitude

/-- The exponent of the leading digit, zero for zero. -/
def leadingExponent : Magnitude → ℤ
  | infinite => 2 ^ (31 : ℕ) - 1
  | finite units _ => if units = 0 then 0 else floorLog units

def leadingPlace : Magnitude → ℤ
  | infinite => 2 ^ (31 : ℕ) - 1
  | finite units _ => if units = 0 then 1 else ceilLog units

/-- Moves by steps of 300 places and then by the rest of them. -/
def shift (x : Magnitude) (power : ℤ) : Magnitude :=
  let move (n : ℕ) (y : Magnitude) := if power < 0 then y / tenPow n else y * tenPow n
  let moved := Nat.repeat (move 300) (power.natAbs / 300) x
  if power.natAbs % 300 = 0 then moved else move (power.natAbs % 300) moved

def roundSignificant (value : Magnitude) : Option ℕ → Magnitude
  | some most => value.roundHalfEven (placesOfCount most - value.leadingPlace)
  | none => value

end Magnitude

def significantNumeral (value : Magnitude) (least : ℕ) (most : Option ℕ) (pad : Char) : Numeral :=
  paddedNumeral (value.roundSignificant most) least pad

namespace Layout

variable (layout : Layout)

/-! ## Fixed notation -/

def fixedInteger (rounded : Magnitude) : List Char :=
  padInteger (.signed false rounded.floor) layout.integerMin layout.integerMax layout.pad

def fixedFraction (value rounded : Magnitude) : List Char :=
  layout.fractionOf (.signed false value) (.signed false rounded)

def fixedNumeral (value : Magnitude) : Numeral :=
  let rounded := value.roundHalfEven (placesOfCount layout.fractionMax)
  ⟨layout.fixedInteger rounded, layout.fixedFraction value rounded⟩

/-! ## Exponential notation -/

/-- The distance between the exponents that a layout allows. -/
def exponentStep : ℤ :=
  match layout.integerMax with
  | some most => if most = layout.integerMin ∨ most = 0 then 1 else placesOfCount most
  | none => 1

/-- The exponent before rounding. -/
def firstExponent (value : Magnitude) : ℤ :=
  if layout.integerMax = some layout.integerMin then
    value.leadingExponent - (placesOfCount layout.integerMin - 1)
  else
    value.leadingExponent / layout.exponentStep * layout.exponentStep

def mantissaAt (value : Magnitude) (exponent : ℤ) : Numeral :=
  significantNumeral (value.shift (-exponent)) (layout.integerMin + layout.fractionMin)
    (layout.integerMax.map (· + layout.fractionMax)) layout.pad

def scientific (value : Magnitude) : Scientific :=
  let exponent := layout.firstExponent value
  let mantissa := layout.mantissaAt value exponent
  if layout.overflows mantissa then
    let exponent := exponent + layout.exponentStep
    ⟨layout.trimInteger (layout.mantissaAt value exponent), exponent⟩
  else ⟨layout.trimInteger mantissa, exponent⟩

end Layout

end DecimalPattern
