import DecimalPattern.Binary64.HalfEven

/-! # Arithmetic with signs

The operations of binary64 on signed numbers. The exact result is rounded once; where there is none,
as for zero times infinity, for the quotient of two zeros or of two infinities and for the sum of
opposite infinities, the result is not-a-number.
-/

namespace DecimalPattern

-- Powers of natural numbers are the built-in ones, also beside the monoids of algebra.
attribute [local instance (2000)] instPowNat

/-- The units of a magnitude, of which infinity has as many as are in `2¹⁰²⁴`. -/
def Magnitude.rank : Magnitude → Nat
  | finite units _ => units
  | infinite => unitLimit

namespace Binary64

def isFinite : Binary64 → Bool
  | nan => false
  | signed _ m => m.isFinite

def isInfinite : Binary64 → Bool
  | nan => false
  | signed _ m => !m.isFinite

/-- Infinity and not-a-number are no whole numbers. -/
def isWhole : Binary64 → Bool
  | nan => false
  | signed _ m => m.isWhole

def abs : Binary64 → Binary64
  | nan => nan
  | signed _ m => signed false m

def signedUnits (negative : Bool) (units : Nat) : Int := if negative then -units else units

/-- Not-a-number is not below or above any number, and the two zeros are equal. -/
def less : Binary64 → Binary64 → Bool
  | signed a x, signed b y => signedUnits a x.rank < signedUnits b y.rank
  | _, _ => false

/-- A sum of zero is positive unless both numbers are negative. -/
def add : Binary64 → Binary64 → Binary64
  | signed a (.finite u _), signed b (.finite v _) =>
    let sum := signedUnits a u + signedUnits b v
    signed (if sum = 0 then a && b else sum < 0) (.ofUnits sum.natAbs)
  | signed a .infinite, signed b .infinite => if a = b then signed a .infinite else nan
  | signed a .infinite, signed _ (.finite ..) => signed a .infinite
  | signed _ (.finite ..), signed b .infinite => signed b .infinite
  | _, _ => nan

def sub (x y : Binary64) : Binary64 := x.add y.neg

def mul : Binary64 → Binary64 → Binary64
  | signed a x, signed b y =>
    if x.isZero && !y.isFinite || !x.isFinite && y.isZero then nan else signed (a ^^ b) (x * y)
  | _, _ => nan

/-- The quotient of another number by zero is infinite. -/
def div : Binary64 → Binary64 → Binary64
  | signed a x, signed b y =>
    if x.isZero && y.isZero || !x.isFinite && !y.isFinite then nan
    else signed (a ^^ b) (if y.isZero then .infinite else x / y)
  | _, _ => nan

/-- The remainder of the quotient without its fraction, with the sign of the dividend. -/
def rem : Binary64 → Binary64 → Binary64
  | signed a (.finite u hu), signed _ y =>
    match y with
    | .finite v _ => if v = 0 then nan else signed a (.ofUnits (u % v))
    | .infinite => signed a (.finite u hu)
  | _, _ => nan

/-- The largest integer that is not above a number. -/
def floor : Binary64 → Binary64
  | signed negative (.finite units _) =>
    let below := units / Magnitude.one
    signed negative
      (.ofNat (if negative ∧ units % Magnitude.one ≠ 0 then below + 1 else below))
  | x => x

/-- The nearest integer, of two the one further from zero. -/
def roundAway : Binary64 → Binary64
  | signed negative (.finite units _) =>
    signed negative (.ofNat ((units + Magnitude.half) / Magnitude.one))
  | x => x

end Binary64

end DecimalPattern
