import DecimalPattern.Binary64.Magnitude

/-! # Binary64 numbers

A number is not-a-number or a sign with a magnitude, so that the two zeros differ.
`ofBits` and `toBits?` are the interchange format: sign, eleven bits of exponent, 52 of fraction.
-/

namespace DecimalPattern

-- Powers of natural numbers are the built-in ones, also beside the monoids of algebra.
attribute [local instance (2000)] instPowNat

inductive Binary64
  | nan
  | signed (negative : Bool) (magnitude : Magnitude)
  deriving DecidableEq

namespace Binary64

def ofBits (bits : UInt64) : Binary64 :=
  let negative := bits.toNat / 2 ^ (63 : Nat) % 2 == 1
  let exponent := bits.toNat / 2 ^ (52 : Nat) % 2 ^ (11 : Nat)
  let fraction := bits.toNat % 2 ^ (52 : Nat)
  if exponent = 2047 then
    if fraction = 0 then signed negative .infinite else nan
  else if exponent = 0 then signed negative (.ofUnits fraction)
  else signed negative (.ofUnits ((2 ^ (52 : Nat) + fraction) * 2 ^ (exponent - 1)))

def ofFloat (x : Float) : Binary64 := ofBits x.toBits

/-- The exponent and fraction fields of a magnitude, as one number. -/
def magnitudeBits : Magnitude → Nat
  | .infinite => 2047 * 2 ^ (52 : Nat)
  | .finite units _ =>
    if units < 2 ^ (52 : Nat) then units
    else (units.log2 - 52) * 2 ^ (52 : Nat) + units / Magnitude.spacing units

/-- A number that is not-a-number has no bits of its own. -/
def toBits? : Binary64 → Option UInt64
  | nan => none
  | signed negative m =>
    some (UInt64.ofNat ((if negative then 2 ^ (63 : Nat) else 0) + magnitudeBits m))

def neg : Binary64 → Binary64
  | nan => nan
  | signed negative m => signed (!negative) m

/-- Both zeros. -/
def isZero : Binary64 → Bool
  | nan => false
  | signed _ m => m.isZero

/-- Below zero, which the negative zero is not. -/
def isNegative : Binary64 → Bool
  | nan => false
  | signed negative m => negative && !m.isZero

/-- The product by a whole number; zero times infinity is not-a-number. -/
def scale (x : Binary64) (factor : Nat) : Binary64 :=
  match x with
  | nan => nan
  | signed _ .infinite => if factor = 0 then nan else x
  | signed negative (.finite units _) => signed negative (.ofUnits (units * factor))

end Binary64

end DecimalPattern
