/-! # Decimal numerals

A decimal is a whole coefficient with a number of places after the point. Its numeral is a pair
of digit lists, the most significant digit first.
-/

namespace DecimalPattern

-- Powers of natural numbers are the built-in ones, also beside the monoids of algebra.
attribute [local instance (2000)] instPowNat

/-- The digits of a natural number, without leading zeros. -/
def digits (n : Nat) : List Char := Nat.toDigits 10 n

/-- The floor of the decimal logarithm of a positive number below `10 ^ 2 ^ bits`. -/
def floorLogTen : (bits : Nat) → (n : Nat) → Nat
  | 0, _ => 0
  | bits + 1, n =>
    let power := 10 ^ (2 ^ bits : Nat)
    if n < power then floorLogTen bits n else 2 ^ bits + floorLogTen bits (n / power)

/-- What is written on either side of the decimal separator. -/
structure Numeral where
  integer : List Char
  fraction : List Char
  deriving DecidableEq, Repr

/-- `coefficient / 10 ^ places`. -/
structure Decimal where
  coefficient : Nat
  places : Nat
  deriving DecidableEq, Repr

namespace Decimal

def integerPart (d : Decimal) : Nat := d.coefficient / 10 ^ d.places

/-- The digits after the point, `places` of them. -/
def fractionDigits (d : Decimal) : List Char :=
  if d.places = 0 then []
  else (digits (d.coefficient % 10 ^ d.places)).leftpad d.places '0'

def numeral (d : Decimal) : Numeral := ⟨digits d.integerPart, d.fractionDigits⟩

end Decimal

end DecimalPattern
