import DecimalPattern.Binary64.Arithmetic
import Mathlib.Data.Nat.Notation

/-! # Numbers with signs

What a sign does to the operations. A factor that is finite and not zero is a factor of the
magnitude, the absolute value forgets the sign, and of a number that is not negative every operation
is one of its magnitude.
-/

namespace DecimalPattern

theorem Magnitude.isZero_zero : zero.isZero := by decide +kernel

namespace Binary64

variable {x : Binary64} {f : ℕ}

theorem not_isInfinite_of_isFinite (h : x.isFinite) : ¬ x.isInfinite := by
  cases x with
  | nan => nofun
  | signed negative m => simpa [isFinite, isInfinite] using h

theorem signedUnits_false (n : ℕ) : signedUnits false n = n := rfl

theorem signedUnits_true (n : ℕ) : signedUnits true n = -n := rfl

theorem isFinite_signed (a : Bool) (m : Magnitude) : (signed a m).isFinite = m.isFinite := rfl

theorem isNegative_of_ne_zero {units : ℕ} (ne : units ≠ 0) (h : Representable units) :
    (signed true (.finite units h)).isNegative := by
  rw [isNegative, Magnitude.isZero, beq_false_of_ne ne]
  rfl

section
variable {hf : Representable f} (pos : 0 < f)
include pos

theorem mul_factor (a : Bool) (m : Magnitude) :
    (signed a m).mul (signed false (.finite f hf)) = signed a (m * .finite f hf) := by
  have zero : (Magnitude.finite f hf).isZero = false := beq_eq_false_iff_ne.mpr (Nat.ne_of_gt pos)
  have finite : (Magnitude.finite f hf).isFinite = true := rfl
  simp [mul, zero, finite]

/-- A finite factor that is not zero makes nothing not-a-number. -/
theorem div_factor (a : Bool) (m : Magnitude) :
    (signed a m).div (signed false (.finite f hf)) = signed a (m / .finite f hf) := by
  have zero : (Magnitude.finite f hf).isZero = false := beq_eq_false_iff_ne.mpr (Nat.ne_of_gt pos)
  have finite : (Magnitude.finite f hf).isFinite = true := rfl
  simp [div, zero, finite]

end

theorem isFinite_neg (x : Binary64) : x.neg.isFinite = x.isFinite := by
  cases x <;> rfl

theorem abs_neg (x : Binary64) : x.neg.abs = x.abs := by
  cases x <;> rfl

end Binary64

end DecimalPattern
