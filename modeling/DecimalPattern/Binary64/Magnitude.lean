/-! # Magnitudes of binary64 numbers

A magnitude is infinite or a whole number of units of `2⁻¹⁰⁷⁴` with at most 53 significant
bits. Every operation takes the exact result and rounds it once, to the nearest magnitude,
a tie to the even one; from `2¹⁰²⁴` on the result is infinite.
-/

namespace DecimalPattern

-- Powers of natural numbers are the built-in ones, also beside the monoids of algebra.
attribute [local instance (2000)] instPowNat

/-- The number of units in `2¹⁰²⁴`. -/
def unitLimit : Nat := 2 ^ (2098 : Nat)

/-- At most 53 significant bits, and below `2¹⁰²⁴`. -/
def Representable (units : Nat) : Prop :=
  2 ^ (units.log2 - 52) ∣ units ∧ units < unitLimit

instance (units : Nat) : Decidable (Representable units) :=
  inferInstanceAs (Decidable (_ ∧ _))

/-- The whole number nearest to `num / den`, of two the even one. -/
def roundQuotient (num den : Nat) : Nat :=
  let floor := num / den
  let rest := num % den
  if 2 * rest < den then floor
  else if den < 2 * rest then floor + 1
  else floor + floor % 2

theorem div_le_roundQuotient (num den : Nat) : num / den ≤ roundQuotient num den := by
  grind [roundQuotient]

theorem roundQuotient_le_succ (num den : Nat) : roundQuotient num den ≤ num / den + 1 := by
  grind [roundQuotient]

inductive Magnitude
  | finite (units : Nat) (representable : Representable units)
  | infinite
  deriving DecidableEq

namespace Magnitude

/-- The number of units in 1. -/
def one : Nat := 2 ^ (1074 : Nat)

/-- The distance between neighbouring magnitudes near `units`. -/
def spacing (units : Nat) : Nat := 2 ^ (units.log2 - 52)

/-- The whole number nearest to `num / den` among those with at most 53 significant bits. -/
def nearestUnits (num den : Nat) : Nat :=
  let grid := spacing (num / den)
  roundQuotient num (den * grid) * grid

/-- A rounded multiple of the spacing near the floor keeps to 53 significant bits. -/
theorem spacing_dvd_nearestUnits (num den : Nat) :
    2 ^ ((nearestUnits num den).log2 - 52) ∣ nearestUnits num den := by
  let grid := spacing (num / den)
  let units := roundQuotient num (den * grid) * grid
  change 2 ^ (units.log2 - 52) ∣ units
  have bound : roundQuotient num (den * grid) ≤ 2 ^ 53 := by
    refine Nat.le_trans (roundQuotient_le_succ _ _) (Nat.succ_le_of_lt ?_)
    rw [← Nat.div_div_eq_div_mul]
    apply Nat.div_lt_of_lt_mul
    rw [show grid = 2 ^ ((num / den).log2 - 52) from rfl, ← Nat.pow_add]
    exact Nat.lt_of_lt_of_le Nat.lt_log2_self (Nat.pow_le_pow_right (by omega) (by omega))
  rcases Nat.lt_or_eq_of_le bound with small | full
  · refine Nat.dvd_trans (Nat.pow_dvd_pow 2 ?_) (Nat.dvd_mul_left grid _)
    by_cases zero : units = 0
    · simp [zero]
    have upper : units < 2 ^ (53 + ((num / den).log2 - 52)) := by
      rw [Nat.pow_add]
      exact Nat.mul_lt_mul_of_pos_right small (Nat.two_pow_pos _)
    have := (Nat.log2_lt zero).mpr upper
    omega
  · have whole : units = 2 ^ (53 + ((num / den).log2 - 52)) := by
      rw [Nat.pow_add, ← full]; rfl
    rw [whole, Nat.log2_two_pow]
    exact Nat.pow_dvd_pow 2 (by omega)

/-- The magnitude nearest to `num / den` units. -/
def round (num den : Nat) : Magnitude :=
  if h : nearestUnits num den < unitLimit then
    .finite (nearestUnits num den) ⟨spacing_dvd_nearestUnits num den, h⟩
  else .infinite

def ofUnits (units : Nat) : Magnitude := round units 1

def ofNat (n : Nat) : Magnitude := ofUnits (n * one)

def zero : Magnitude := ofUnits 0

/-- The largest integer not above a finite magnitude. -/
def floor? : Magnitude → Option Nat
  | finite units _ => some (units / one)
  | infinite => none

def isZero : Magnitude → Bool
  | finite units _ => units == 0
  | infinite => false

def isFinite : Magnitude → Bool
  | finite .. => true
  | infinite => false

/-- Infinity is no whole number. -/
def isWhole : Magnitude → Bool
  | finite units _ => units % one == 0
  | infinite => false

/-- The product. Zero times infinity, which has none, does not arise. -/
def mul : Magnitude → Magnitude → Magnitude
  | finite u _, finite v _ => round (u * v) one
  | _, _ => infinite

/-- The quotient. A zero divisor and two infinities do not arise. -/
def div : Magnitude → Magnitude → Magnitude
  | finite u _, finite v _ => round (u * one) v
  | finite .., infinite => zero
  | infinite, _ => infinite

instance : Mul Magnitude := ⟨mul⟩
instance : Div Magnitude := ⟨div⟩

/-- Square and multiply, rounding each product: `result * base ^ n`. -/
def powerLoop (result base : Magnitude) (n : Nat) : Magnitude :=
  let result := if n % 2 = 1 then result * base else result
  if n / 2 = 0 then result else powerLoop result (base * base) (n / 2)
termination_by n

/-- The power of ten that repeated squaring arrives at, exact up to `10²²`. -/
def tenPow (n : Nat) : Magnitude := powerLoop (ofNat 1) (ofNat 10) n

end Magnitude

end DecimalPattern
