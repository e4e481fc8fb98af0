/-! # 32-bit numbers

Counts of digits are used as 32-bit numbers, around which they wrap. A sum, a difference, a product
or a quotient that leaves the range has no result.
-/

namespace DecimalPattern

-- Powers of natural numbers are the built-in ones, also beside the monoids of algebra.
attribute [local instance (2000)] instPowNat

/-- A count of digits as a 32-bit number. -/
def placesOfCount (count : Nat) : Int := (count : Int).bmod (2 ^ (32 : Nat))

/-- A number that has to be a 32-bit number. -/
def word? (n : Int) : Option Int :=
  if -2 ^ (31 : Nat) ≤ n ∧ n < 2 ^ (31 : Nat) then some n else none

/-- The quotient whose remainder is not negative; there is none by zero. -/
def quotient? (a b : Int) : Option Int := if b = 0 then none else word? (a / b)

end DecimalPattern
