import DecimalPattern.Binary64.Basic

/-! # Rounding at a decimal place

The value is moved by a power of ten, rounded to an integer and moved back. A fraction within
`10⁻¹²` of one half counts as a tie and goes to the even neighbour. Where the power or the
moved value is infinite there is nothing to round and the value stays as it is.
-/

namespace DecimalPattern

-- Powers of natural numbers are the built-in ones, also beside the monoids of algebra.
attribute [local instance (2000)] instPowNat

namespace Magnitude

/-- The units of the binary64 number nearest to `10⁻¹²`. -/
def tieWidth : Nat := 0x119799812DEA11 * 2 ^ (982 : Nat)

def half : Nat := 2 ^ (1073 : Nat)

def nearestInteger : Magnitude → Magnitude
  | infinite => infinite
  | finite units _ =>
    let whole := units / one
    let fraction := units % one
    if half < fraction + tieWidth ∧ fraction < half + tieWidth then ofNat (whole + whole % 2)
    else if fraction < half then ofNat whole
    else ofNat (whole + 1)

/-- Rounds at `places` digits after the point, or before it where `places` is negative. -/
def roundHalfEven (x : Magnitude) (places : Int) : Magnitude :=
  let factor := tenPow places.natAbs
  if places = 0 then x.nearestInteger
  else if !factor.isFinite then x
  else if places < 0 then (x / factor).nearestInteger * factor
  else if (x * factor).isFinite then (x * factor).nearestInteger / factor
  else x

end Magnitude

namespace Binary64

/-- The sign is kept, also that of zero. -/
def roundHalfEven (x : Binary64) (places : Int) : Binary64 :=
  match x with
  | nan => nan
  | signed negative m => signed negative (m.roundHalfEven places)

/-- Rounding at a 32-bit number of places; the least such number has no opposite and is refused. -/
def roundHalfEven? (x : Binary64) (places : Int32) : Option Binary64 :=
  if places = Int32.minValue then none else some (x.roundHalfEven places.toInt)

end Binary64

end DecimalPattern
