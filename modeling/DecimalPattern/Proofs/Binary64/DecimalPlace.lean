import DecimalPattern.Proofs.Binary64.DigitCount
import DecimalPattern.Proofs.Binary64.Logarithm
import DecimalPattern.Proofs.Binary64.Overflow

/-! # Rounding at a decimal place, by value

Where the power of ten is exact, rounding at a place takes the nearest integer to the moved value,
but for the width of a tie and one rounding, and gives the magnitude nearest to that integer at the
place.
-/

namespace DecimalPattern

-- Powers of natural numbers are the built-in ones, also beside the monoids of algebra.
attribute [local instance (2000)] instPowNat

namespace Magnitude

variable {units num den n r : ℕ} {places : ℤ}

/-- The nearest integer to a quotient of units. -/
theorem exists_nearestInteger_round (pos : 0 < den) (small : (num / den / one : ℝ) ≤ 2 ^ (50 : ℕ)) :
    ∃ w hw j, round num den = finite w hw ∧ (finite w hw).nearestInteger = ofNat j ∧
      j < 2 ^ (52 : ℕ) ∧ |(j : ℝ) - num / den / one| ≤
        1 / 2 + 1 / 2 ^ (39 : ℕ) + num / den / one / 2 ^ (53 : ℕ) := by
  have unit := one_cast_pos
  have scale : (0 : ℝ) < den := by exact_mod_cast pos
  have bound : num ≤ 2 ^ (50 : ℕ) * one * den := by
    have cast : (num : ℝ) ≤ (2 ^ (50 : ℕ) * one * den : ℕ) := by
      rw [Nat.cast_mul, Nat.cast_mul, Nat.cast_pow, Nat.cast_ofNat]
      rwa [div_le_iff₀ unit, div_le_iff₀ scale] at small
    exact Nat.cast_le.mp cast
  obtain ⟨w, hw, eq, le⟩ := isFinite_round_of_le pos (precise_mul_one (by decide)) bound
    (two_pow_mul_one_lt (by decide))
  obtain ⟨j, integer, double, lower, upper⟩ := exists_nearestInteger_eq hw
  refine ⟨w, hw, j, eq, integer, ?_, ?_⟩
  · by_contra large
    have := Nat.mul_le_mul_right one (Nat.le_of_not_lt large)
    have := one_pos
    omega
  · have rounded := abs_div_sub_div_le unit (abs_nearestUnits_sub_le num pos)
    rw [round_eq_finite_iff.mp eq] at rounded
    have width : (tieWidth / one + 1 / 2 / one : ℝ) ≤ 1 / 2 ^ (39 : ℕ) := by
      have : (((2 * tieWidth + 1) * 2 ^ (38 : ℕ) : ℕ) : ℝ) ≤ one := Nat.cast_le.mpr half_bounds.2
      rw [Nat.cast_mul, Nat.cast_pow, Nat.cast_add, Nat.cast_mul, Nat.cast_ofNat, Nat.cast_one]
        at this
      rw [← add_div, div_le_div_iff₀ unit (by positivity)]
      linarith
    have lower : (2 * (j * one) : ℝ) ≤ 2 * w + one + 2 * tieWidth := by exact_mod_cast lower
    have upper : (2 * w : ℝ) ≤ 2 * (j * one) + one + 2 * tieWidth := by exact_mod_cast upper
    have tie : |(j : ℝ) * one / one - w / one| ≤ (one / 2 + tieWidth) / one :=
      abs_div_sub_div_le unit (abs_le.mpr ⟨by linarith, by linarith⟩)
    rw [mul_div_cancel_right₀ _ unit.ne', add_div, div_right_comm, div_self unit.ne'] at tie
    rw [add_div, div_right_comm (num / den : ℝ) (2 ^ (53 : ℕ)) one] at rounded
    rw [abs_le] at tie rounded ⊢
    constructor <;> linarith

theorem ten_zpow_eq (places : ℤ) :
    (10 : ℝ) ^ places = 10 ^ places.toNat / 10 ^ (-places).toNat := by
  rw [← zpow_natCast, ← zpow_natCast, ← zpow_sub₀ (by norm_num), Int.toNat_sub_toNat_neg]

/-- The value is moved by a product or by a quotient, and the integer moved back by the other. -/
theorem roundHalfEven_eq {w j : ℕ} (h : Representable units) (few : places.natAbs ≤ 22)
    (hw : Representable w)
    (moved : round (units * 10 ^ places.toNat) (10 ^ (-places).toNat) = finite w hw)
    (integer : (finite w hw).nearestInteger = ofNat j) (whole : Representable (j * one)) :
    (finite units h).roundHalfEven places =
      round (j * one * 10 ^ (-places).toNat) (10 ^ places.toNat) := by
  obtain ⟨hten, ten⟩ := exists_tenPow_eq few
  rw [roundHalfEven]
  rcases lt_trichotomy places 0 with negative | rfl | positive
  · have left : places.toNat = 0 := by omega
    have right : (-places).toNat = places.natAbs := by omega
    rw [left, right, Nat.pow_zero] at moved ⊢
    rw [Nat.mul_one] at moved
    rw [if_neg negative.ne, if_neg (by simp [ten, isFinite]), if_pos negative,
      finite_div_tenPow h few, moved, integer, ofNat_eq whole, finite_mul_tenPow whole few]
  · have self : round units 1 = finite units h := by
      rw [round_eq_finite_iff]
      simpa using nearestUnits_of_precise Nat.one_pos h.1
    have zero : (0 : ℤ).toNat = 0 ∧ (-0 : ℤ).toNat = 0 := ⟨rfl, rfl⟩
    rw [zero.1, zero.2, Nat.pow_zero] at moved ⊢
    rw [Nat.mul_one, self] at moved
    rw [if_pos rfl, moved, integer, Nat.mul_one]
    rfl
  · have left : places.toNat = places.natAbs := by omega
    have right : (-places).toNat = 0 := by omega
    rw [left, right, Nat.pow_zero] at moved ⊢
    rw [Nat.mul_one, if_neg positive.ne', if_neg (by simp [ten, isFinite]),
      if_neg positive.not_gt, finite_mul_tenPow h few, moved, if_pos (by rfl), integer,
      ofNat_eq whole, finite_div_tenPow whole few]

/-- The rounded value, as the magnitude nearest to an integer at the place. -/
theorem exists_roundHalfEven_eq (h : Representable units) (few : places.natAbs ≤ 22)
    (small : toReal units * 10 ^ places ≤ 2 ^ (50 : ℕ)) :
    ∃ j : ℕ, j < 2 ^ (52 : ℕ) ∧ |(j : ℝ) - toReal units * 10 ^ places| ≤
        1 / 2 + 1 / 2 ^ (39 : ℕ) + toReal units * 10 ^ places / 2 ^ (53 : ℕ) ∧
      (finite units h).roundHalfEven places =
        round (j * one * 10 ^ (-places).toNat) (10 ^ places.toNat) := by
  have value : ((units * 10 ^ places.toNat : ℕ) : ℝ) / (10 ^ (-places).toNat : ℕ) / one =
      toReal units * 10 ^ places := by
    rw [ten_zpow_eq, toReal, Nat.cast_mul, Nat.cast_pow, Nat.cast_pow, Nat.cast_ofNat]
    generalize (one : ℝ) = one
    ring
  have pos : 0 < 10 ^ (-places).toNat := Nat.pow_pos (by decide)
  obtain ⟨w, hw, j, moved, integer, bound, near⟩ :=
    exists_nearestInteger_round pos (value.trans_le small)
  rw [value] at near
  have whole := representable_of_lt (n := j) (by omega)
  exact ⟨j, bound, near, roundHalfEven_eq h few hw moved integer whole⟩

/-- The integer at its place reads back as the rounded value. -/
theorem readsBack_of_round {j : ℕ} (hr : Representable r) (few : places ≤ 1074)
    (eq : round (j * one * 10 ^ (-places).toNat) (10 ^ places.toNat) = finite r hr) :
    readsBack r (j * 10 ^ (1074 - places).toNat) := by
  rw [readsBack_iff hr.1, ← round_eq_finite_iff.mp eq]
  apply nearestUnits_congr decimalUnits_pos (Nat.pow_pos (by decide))
  obtain ⟨n, size, scale⟩ := exists_one_mul_decimalUnits
  calc j * 10 ^ (1074 - places).toNat * 10 ^ places.toNat
      = j * 10 ^ (n + (-places).toNat) := by
        rw [Nat.mul_assoc, ← Nat.pow_add, show (1074 - places).toNat + places.toNat =
          n + (-places).toNat by omega]
    _ = j * one * 10 ^ (-places).toNat * decimalUnits := by
        rw [Nat.pow_add, ← scale, Nat.mul_right_comm _ (10 ^ _), Nat.mul_assoc, Nat.mul_assoc,
          Nat.mul_assoc]

end Magnitude

end DecimalPattern
