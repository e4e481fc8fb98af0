import DecimalPattern.Format.Significant
import DecimalPattern.Layout.Basic
import DecimalPattern.Locale.Symbols

/-! # Exponential notation

Where the bounds on the integer digits agree the mantissa has that many; otherwise the exponent is
a multiple of the upper bound, as in engineering notation. A mantissa that rounding makes too long
is formed again with the next exponent.
-/

namespace DecimalPattern

namespace Binary64

/-- At most 300 places in the direction of a shift, so that no power of ten is infinite. -/
def shiftStep (power : Int) : Int := max (-300) (min 300 power)

def move? (x : Binary64) (step : Int) : Option Binary64 :=
  if step < 0 then (word? (-step)).map fun places => x.div (signed false (.tenPow places.toNat))
  else some (x.mul (signed false (.tenPow step.toNat)))

/-- Moves the point as long as there are places left. -/
def shift? (x : Binary64) (remaining : Int) : Option Binary64 :=
  if remaining = 0 then some x
  else do
    let moved ← x.move? (shiftStep remaining)
    let _ ← word? (remaining - shiftStep remaining)
    shift? moved (remaining - shiftStep remaining)
termination_by remaining.natAbs
decreasing_by
  rw [shiftStep]
  omega

end Binary64

/-- The digits of a mantissa, and its exponent with sign and padding. -/
structure ExponentialDigits where
  mantissa : Numeral
  exponent : String
  deriving DecidableEq

namespace Layout

/-- The exponent before rounding, and the distance between the exponents that a layout allows. -/
def firstExponent? (layout : Layout) (leading : Int) : Option (Int × Int) :=
  if layout.integerMax = some layout.integerMin then do
    let digits ← word? (placesOfCount layout.integerMin - 1)
    return (← word? (leading - digits), 1)
  else
    match layout.integerMax.filter (0 < ·) with
    | some most => do
      let step := placesOfCount most
      return (← word? ((← quotient? leading step) * step), step)
    | none => some (leading, 1)

def mantissa? (layout : Layout) (value : Binary64) (exponent : Int) : Option Numeral := do
  let shifted ← value.shift? (← word? (-exponent))
  splitSignificant? shifted (layout.integerMin + layout.fractionMin)
    (layout.integerMax.map (· + layout.fractionMax)) layout.pad

/-- Whether a mantissa has more integer digits than the layout allows. -/
def overflows (layout : Layout) (mantissa : Numeral) : Bool :=
  match layout.integerMax with
  | some most => 0 < most && most < mantissa.integer.length
  | none => false

/-- A layout without integer digits shows no lone zero before the point. -/
def trimInteger (layout : Layout) (mantissa : Numeral) : Numeral :=
  if layout.integerMin = 0 ∧ mantissa.integer = ['0'] then { mantissa with integer := [] }
  else mantissa

def formatExponential? (layout : Layout) (symbols : Symbols) (value : Binary64) :
    Option ExponentialDigits := do
  let value := value.abs
  let (first, step) ← layout.firstExponent? value.leadingExponent
  let mantissa ← layout.mantissa? value first
  let (mantissa, exponent) ←
    if layout.overflows mantissa then do
      let next ← word? (first + step)
      pure (← layout.mantissa? value next, next)
    else pure (mantissa, first)
  let sign :=
    if exponent < 0 then symbols.negativeSign
    else if layout.exponentPlus then symbols.positiveSign
    else ""
  let digits := (digits exponent.natAbs).leftpad layout.exponentMin layout.pad
  return ⟨layout.trimInteger mantissa, sign ++ String.ofList digits⟩

end Layout

end DecimalPattern
