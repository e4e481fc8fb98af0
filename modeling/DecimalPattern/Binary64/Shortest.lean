import DecimalPattern.Binary64.Basic
import DecimalPattern.Decimal

/-! # The shortest decimal that reads back

Exact arithmetic in units of `10⁻¹⁰⁷⁴`, on which every finite magnitude is whole. The reals that
round to a magnitude form an interval, its ends included if the last bit of the magnitude is
even. The coarsest power of ten with a multiple in the interval decides the number of digits,
and of its multiples the nearest is taken, a tie going up.
-/

namespace DecimalPattern

-- Powers of natural numbers are the built-in ones, also beside the monoids of algebra.
attribute [local instance (2000)] instPowNat

namespace Magnitude

/-- The number of units of `10⁻¹⁰⁷⁴` in the unit of magnitudes. -/
def decimalUnits : Nat := 5 ^ (1074 : Nat)

/-- The distance to the next magnitude below, which is halved at a power of two. -/
def spacingBelow (units : Nat) : Nat :=
  let grid := spacing units
  if units = 2 ^ units.log2 ∧ 1 < grid then grid / 2 else grid

/-- Whether `t` units of `10⁻¹⁰⁷⁴` round to the magnitude of `units`. -/
def readsBack (units t : Nat) : Bool :=
  let low := (2 * units - spacingBelow units) * decimalUnits
  let high := (2 * units + spacing units) * decimalUnits
  if units / spacing units % 2 = 0 then low ≤ 2 * t && 2 * t ≤ high
  else low < 2 * t && 2 * t < high

/-- Of the two multiples of `10 ^ power` around the value, the one to print, if any reads back. -/
def candidate? (units power : Nat) : Option Nat :=
  let value := units * decimalUnits
  let step := 10 ^ power
  let below := value / step
  let above := below + 1
  match readsBack units (below * step), readsBack units (above * step) with
  | true, true => some (if value - below * step < above * step - value then below else above)
  | true, false => some below
  | false, true => some above
  | false, false => none

/-- Searches the powers of ten downwards; the value itself is a multiple of the last. -/
def shortestFrom (units : Nat) : Nat → Decimal
  | 0 => ⟨units * decimalUnits, 1074⟩
  | power + 1 =>
    match candidate? units (power + 1) with
    | some c =>
      if power + 1 ≤ 1074 then ⟨c, 1074 - (power + 1)⟩
      else ⟨c * 10 ^ (power + 1 - 1074), 0⟩
    | none => shortestFrom units power

/-- The shortest decimal of a finite magnitude; the search starts above the value. -/
def shortest (units : Nat) : Decimal :=
  if units = 0 then ⟨0, 0⟩
  else shortestFrom units (floorLogTen 11 (units * decimalUnits) + 1)

/-- Infinity has a word in place of digits. -/
def numeral : Magnitude → Numeral
  | infinite => ⟨"inf".toList, []⟩
  | finite units _ => (shortest units).numeral

end Magnitude

/-- A number below zero has a minus sign before its digits, and the negative zero has one, too. -/
def Binary64.numeral : Binary64 → Numeral
  | nan => ⟨"NaN".toList, []⟩
  | signed false m => m.numeral
  | signed true m => { m.numeral with integer := '-' :: m.numeral.integer }

end DecimalPattern
