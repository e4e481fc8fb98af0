import DecimalPattern.Binary64.Shortest

/-! # The decimal logarithm

The logarithm of `m * 2 ^ e` is `e` times that of two plus `log₁₀ e` times the natural logarithm
of `m`, evaluated in binary64: the natural logarithm is carried to 62 bits before it is rounded,
every product and sum is rounded once, and the logarithm of two comes in two parts, of which the
first has so few bits that its product is exact. Near a power of ten the result may be the whole
exponent itself, so that the floor or the ceiling of a neighbour of `10 ^ k` is `k`. Signed
numbers are whole numbers of units.
-/

namespace DecimalPattern

-- Powers of natural numbers are the built-in ones, also beside the monoids of algebra.
attribute [local instance (2000)] instPowNat

namespace Magnitude

/-- The number nearest to `num / den` with at most 53 significant bits. -/
def roundSigned (num : Int) (den : Nat) : Int := num.sign * nearestUnits num.natAbs den

/-- One in the fixed-point numbers of the series, which have 256 binary places. -/
def seriesOne : Nat := 2 ^ (256 : Nat)

/-- The sum of `square ^ i / (odd + 2 * i)` over the first terms, from the last to the first. -/
def oddSeries (square : Nat) : (terms odd : Nat) → Nat
  | 0, _ => 0
  | terms + 1, odd => seriesOne / odd + square * oddSeries square terms (odd + 2) / seriesOne

/-- Nine bits more than a magnitude holds are kept first, and of these half a unit goes up. -/
def roundGuarded (n : Nat) : Nat :=
  let grid := 2 ^ (n.log2 - 61)
  (roundQuotient n grid + 2 ^ (8 : Nat)) / 2 ^ (9 : Nat) * 2 ^ (9 : Nat) * grid

/-- The natural logarithm of `num / den`, between one half and two. With the quotient `t` of the
difference by the sum it is twice `t + t³ / 3 + t⁵ / 5 + …`, where `t` is at most one third, so
that eighty terms leave an error far below that of rounding. -/
def naturalLog (num den : Nat) : Int :=
  let t := ((num : Int) - den) * seriesOne / (num + den)
  let square := (t * t / seriesOne).toNat
  let sum := 2 * t * oddSeries square 80 1
  sum.sign * (roundGuarded sum.natAbs * one / (seriesOne * seriesOne) : Nat)

/-- The leading forty bits of `log₁₀ 2`. -/
def logTwoHigh : Nat := 0x134413509F6000 * 2 ^ (1020 : Nat)

/-- What `log₁₀ 2` has beyond its leading bits. -/
def logTwoLow : Nat := 0x19FEF311F12B36 * 2 ^ (980 : Nat)

/-- The decimal logarithm of Euler's number. -/
def logEuler : Nat := 0x1BCB7B1526E50E * 2 ^ (1020 : Nat)

/-- The logarithm of a positive magnitude. The fraction is taken from one to two, and below one
from one half to one. -/
def log10 (units : Nat) : Int :=
  let bits := if units.log2 < 1074 then units.log2 + 1 else units.log2
  let exponent := (bits : Int) - 1074
  let low := roundSigned (exponent * logTwoLow) 1
  let fraction := roundSigned (logEuler * naturalLog units (2 ^ bits)) one
  roundSigned (roundSigned (low + fraction) 1 + exponent * logTwoHigh) 1

/-- The floor of the logarithm of a positive magnitude. -/
def floorLog (units : Nat) : Int := log10 units / one

/-- The ceiling of the logarithm of a positive magnitude. -/
def ceilLog (units : Nat) : Int := -(-log10 units / one)

end Magnitude

namespace Binary64

/-- A function of the logarithm as a 32-bit number. The logarithm of infinity becomes the largest
one, and that of a number below zero, which is not-a-number, becomes zero. -/
def ofLog (f : Nat → Int) : Binary64 → Int
  | signed false (.finite units _) => f units
  | signed false .infinite => 2 ^ (31 : Nat) - 1
  | _ => 0

/-- The exponent of the leading digit, zero for zero. -/
def leadingExponent (x : Binary64) : Int := if x.isZero then 0 else x.ofLog Magnitude.floorLog

/-- The number of integer digits that a number counts as having, the ceiling of its logarithm. -/
def leadingPlace (x : Binary64) : Int := if x.isZero then 1 else x.ofLog Magnitude.ceilLog

end Binary64

end DecimalPattern
