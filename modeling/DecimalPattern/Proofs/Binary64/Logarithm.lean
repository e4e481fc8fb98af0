import DecimalPattern.Proofs.Binary64.NaturalLog
import Mathlib.Analysis.SpecialFunctions.Log.Base

/-! # The error of the decimal logarithm

The computed logarithm of a magnitude is within `2⁻⁴⁴` of the exact one, most of which is the last
rounding. Its floor and its ceiling therefore place a magnitude between powers of ten up to a
factor of `1 + 2⁻⁴²`, which is what the choice of a rounding place or of an exponent rests on.
-/

namespace DecimalPattern

-- Powers of natural numbers are the built-in ones, also beside the monoids of algebra.
attribute [local instance (2000)] instPowNat

namespace Magnitude

variable {num den units : ℕ} {i : ℤ} {x : ℝ}

/-! ## Constants -/

theorem log_ten_eq : Real.log 10 = 3 * Real.log 2 + Real.log (5 / 4) := by
  rw [show (10 : ℝ) = 2 ^ (3 : ℕ) * (5 / 4) by norm_num, Real.log_mul (by norm_num) (by norm_num),
    Real.log_pow]
  norm_num

/-- The constants against the series for two and for five quarters. -/
theorem constants_near :
    |((logTwoHigh + logTwoLow : ℕ) : ℤ) * (3 * seriesSum 2 1 + seriesSum 5 4) -
        seriesSum 2 1 * one| * 2 ^ (90 : ℕ) ≤ (seriesOne ^ 2 * one : ℕ) ∧
      |(logEuler : ℤ) * (3 * seriesSum 2 1 + seriesSum 5 4) - (seriesOne ^ 2 * one : ℕ)| *
        2 ^ (53 : ℕ) ≤ (seriesOne ^ 2 * one : ℕ) := by
  decide +kernel

/-- Their sizes. -/
theorem constants_le : 3 * logTwoHigh ≤ one ∧ 2 ^ (41 : ℕ) * logTwoLow ≤ one ∧
    2 * logEuler ≤ one ∧ 2 * one ≤ 5 * logEuler := by
  decide +kernel

theorem abs_series_two_sub_le :
    |(seriesSum 2 1 : ℝ) / seriesOne ^ 2 - Real.log 2| ≤ 1 / 2 ^ (200 : ℕ) := by
  have near := abs_seriesSum_sub_le (show 0 < 1 by decide) (show 2 ≤ 2 * 1 by decide) (by decide)
  norm_num only [Nat.cast_ofNat, Nat.cast_one, div_one] at near ⊢
  exact near

theorem abs_series_ten_sub_le :
    |(3 * seriesSum 2 1 + seriesSum 5 4 : ℝ) / seriesOne ^ 2 - Real.log 10| ≤
      4 * (1 / 2 ^ (200 : ℕ)) := by
  have two := abs_series_two_sub_le
  have rest := abs_seriesSum_sub_le (show 0 < 4 by decide) (show 5 ≤ 2 * 4 by decide) (by decide)
  push_cast at rest
  rw [add_div, mul_div_assoc, log_ten_eq]
  rw [abs_le] at *
  constructor <;> linarith

section

variable {c t a ℓ α ε p unit scale : ℝ}

/-- A product of rounded factors against a rounded target, as fractions. -/
theorem abs_ratio_sub_le (hunit : 0 < unit) (hscale : 0 < scale) (hp : 0 < p)
    (near : |c * t - a * unit| * p ≤ scale * unit) :
    |c / unit * (t / scale) - a / scale| ≤ 1 / p := by
  have product := mul_pos hscale hunit
  have common : c / unit * (t / scale) - a / scale = (c * t - a * unit) / (scale * unit) := by
    field_simp
  rw [common, abs_div, abs_of_pos product, div_le_div_iff₀ product hp, one_mul]
  exact near

/-- The rounded factors are replaced by the exact ones. -/
theorem abs_constant_sub_le (nonneg : 0 ≤ c) (small : c ≤ 1)
    (ten : |t - ℓ| ≤ 4 * (1 / 2 ^ (200 : ℕ))) (target : |a - α| ≤ 1 / 2 ^ (200 : ℕ))
    (near : |c * t - a| ≤ ε) : |c * ℓ - α| ≤ ε + 5 * (1 / 2 ^ (200 : ℕ)) := by
  have moved : |c * (t - ℓ)| ≤ 1 * (4 * (1 / 2 ^ (200 : ℕ))) :=
    abs_mul_le_mul ((abs_of_nonneg nonneg).trans_le small) ten
  rw [mul_sub] at moved
  rw [abs_le] at *
  constructor <;> linarith

end

theorem div_one_le_one {n : ℕ} (le : n ≤ one) : (n : ℝ) / one ≤ 1 := by
  rw [div_le_one one_cast_pos]
  exact Nat.cast_le.mpr le

theorem abs_div_one_le {n k : ℕ} (pos : 0 < k) (le : k * n ≤ one) :
    |(n : ℝ) / one| ≤ 1 / k := by
  have scale : (0 : ℝ) < k := by exact_mod_cast pos
  have le : (k * n : ℝ) ≤ one := by exact_mod_cast le
  rw [abs_of_nonneg (div_nonneg (Nat.cast_nonneg _) one_cast_pos.le),
    div_le_div_iff₀ one_cast_pos scale]
  linarith

/-- The two parts of the logarithm of two. -/
theorem abs_logTwo_sub_le :
    |((logTwoHigh + logTwoLow : ℕ) : ℝ) / one * Real.log 10 - Real.log 2| ≤ 1 / 2 ^ (85 : ℕ) := by
  have near : |((logTwoHigh + logTwoLow : ℕ) : ℝ) * (3 * seriesSum 2 1 + seriesSum 5 4) -
      seriesSum 2 1 * one| * 2 ^ (90 : ℕ) ≤ (seriesOne : ℝ) ^ 2 * one := by
    exact_mod_cast constants_near.1
  have small : logTwoHigh + logTwoLow ≤ one := by
    have := constants_le
    omega
  have ratio := abs_ratio_sub_le one_cast_pos (pow_pos seriesOne_cast_pos 2) (by norm_num) near
  refine (abs_constant_sub_le (div_nonneg (Nat.cast_nonneg _) one_cast_pos.le)
    (div_one_le_one small) abs_series_ten_sub_le abs_series_two_sub_le ratio).trans ?_
  norm_num

/-- The logarithm of Euler's number is the inverse of that of ten. -/
theorem abs_logEuler_sub_le :
    |(logEuler : ℝ) / one * Real.log 10 - 1| ≤ 1 / 2 ^ (52 : ℕ) := by
  have scale := pow_pos seriesOne_cast_pos 2
  have near : |(logEuler : ℝ) * (3 * seriesSum 2 1 + seriesSum 5 4) -
      (seriesOne : ℝ) ^ 2 * one| * 2 ^ (53 : ℕ) ≤ (seriesOne : ℝ) ^ 2 * one := by
    exact_mod_cast constants_near.2
  have small : logEuler ≤ one := by
    have := constants_le
    omega
  have ratio := abs_ratio_sub_le one_cast_pos scale (by norm_num) near
  rw [div_self scale.ne'] at ratio
  refine (abs_constant_sub_le (div_nonneg (Nat.cast_nonneg _) one_cast_pos.le)
    (div_one_le_one small) abs_series_ten_sub_le (α := 1) (by norm_num) ratio).trans ?_
  norm_num

theorem one_le_log_ten : 1 ≤ Real.log 10 := by
  have near := (abs_le.mp abs_logEuler_sub_le).1
  have small := (abs_le.mp (abs_div_one_le (k := 2) (by decide) constants_le.2.2.1)).2
  have pos := Real.log_pos (show (1 : ℝ) < 10 by norm_num)
  have := mul_le_mul_of_nonneg_right small pos.le
  push_cast at this
  linarith

/-! ## Rounding of signed numbers -/

theorem abs_nearestUnits_sub_le (num : ℕ) (pos : 0 < den) :
    |(nearestUnits num den : ℝ) - num / den| ≤ num / den / 2 ^ (53 : ℕ) + 1 / 2 := by
  have scale : (0 : ℝ) < den := by exact_mod_cast pos
  have grid : spacing (num / den) * 2 ^ (52 : ℕ) ≤ num / den + 2 ^ (52 : ℕ) := by
    rcases Nat.lt_or_ge (num / den) (2 ^ (52 : ℕ)) with small | large
    · rw [spacing_eq_one (by omega), Nat.one_mul]
      exact Nat.le_add_left _ _
    · exact Nat.le_add_right_of_le (spacing_mul_le _ large)
  obtain ⟨lower, upper⟩ := nearestUnits_bounds num pos
  have floor : ((num / den : ℕ) : ℝ) ≤ num / den := Nat.cast_div_le
  have grid : (spacing (num / den) * 2 ^ (52 : ℕ) : ℝ) ≤ (num / den : ℕ) + 2 ^ (52 : ℕ) := by
    exact_mod_cast grid
  have lower : (2 * (nearestUnits num den * den) : ℝ) ≤ 2 * num + den * spacing (num / den) := by
    exact_mod_cast lower
  have upper : (2 * num : ℝ) ≤ 2 * (nearestUnits num den * den) + den * spacing (num / den) := by
    exact_mod_cast upper
  generalize (spacing (num / den) : ℝ) = g at *
  generalize (nearestUnits num den : ℝ) = n at *
  have half : |n - num / den| ≤ g / 2 := by
    rw [abs_le, neg_le_sub_iff_le_add, div_le_iff₀ scale, sub_le_iff_le_add', ← sub_le_iff_le_add,
      le_div_iff₀ scale]
    constructor <;> linarith
  have room : g / 2 ≤ num / den / 2 ^ (53 : ℕ) + 1 / 2 := by linarith
  exact half.trans room

/-- One rounding of a signed number. -/
theorem abs_roundSigned_sub_le (i : ℤ) (pos : 0 < den) :
    |(roundSigned i den : ℝ) - i / den| ≤ |(i : ℝ) / den| / 2 ^ (53 : ℕ) + 1 / 2 := by
  have scale : (0 : ℝ) < den := by exact_mod_cast pos
  have absolute := abs_nearestUnits_sub_le i.natAbs pos
  have size : (i.natAbs : ℝ) / den = |(i : ℝ) / den| := by
    rw [Nat.cast_natAbs, Int.cast_abs, abs_div, abs_of_pos scale]
  have signed := abs_sign_mul_sub_le i (nearestUnits i.natAbs den) den
  rw [size] at absolute signed
  rw [roundSigned, Int.cast_mul, Int.cast_natCast]
  exact signed.trans absolute

/-- The same as values. -/
theorem abs_roundSigned_div_sub_le (i : ℤ) (pos : 0 < den) :
    |(roundSigned i den : ℝ) / one - i / den / one| ≤
      |(i : ℝ) / den / one| / 2 ^ (53 : ℕ) + 1 / 2 ^ (100 : ℕ) := by
  have unit := one_cast_pos
  have tiny : 1 / 2 / (one : ℝ) ≤ 1 / 2 ^ (100 : ℕ) := by
    rw [div_right_comm]
    exact (half_le_self (one_div_pos.mpr unit).le).trans one_div_one_le
  have near := abs_div_sub_div_le unit (abs_roundSigned_sub_le i pos)
  have size : |(i : ℝ) / den / one| = |(i : ℝ) / den| / one := by rw [abs_div, abs_of_pos unit]
  rw [add_div, div_right_comm |(i : ℝ) / den|, ← size] at near
  linarith

/-! ## The decimal logarithm -/

/-- An error only shrinks when it is divided by the logarithm of ten. -/
theorem abs_sub_div_le {c a ℓ ε : ℝ} (hℓ : 1 ≤ ℓ) (near : |c * ℓ - a| ≤ ε) : |c - a / ℓ| ≤ ε := by
  have pos : 0 < ℓ := by linarith
  rw [sub_div' pos.ne', abs_div, abs_of_pos pos]
  exact (div_le_self (abs_nonneg _) hℓ).trans near

/-- The errors of the parts and of the roundings between them. -/
theorem abs_logarithm_sub_le {e high low logE n f ℓ two lo fr sum result : ℝ}
    (he : |e| ≤ 1074) (hhigh : |high| ≤ 1 / 3) (hlow : |low| ≤ 1 / 2 ^ (41 : ℕ))
    (hlogE : |logE| ≤ 1 / 2) (hn : |n - f| ≤ 1 / 2 ^ (51 : ℕ)) (hf : |f| ≤ 1)
    (htwo : |(high + low) * ℓ - two| ≤ 1 / 2 ^ (85 : ℕ))
    (hten : |logE * ℓ - 1| ≤ 1 / 2 ^ (52 : ℕ)) (hℓ : 1 ≤ ℓ)
    (hlo : |lo - e * low| ≤ |e * low| / 2 ^ (53 : ℕ) + 1 / 2 ^ (100 : ℕ))
    (hfr : |fr - logE * n| ≤ |logE * n| / 2 ^ (53 : ℕ) + 1 / 2 ^ (100 : ℕ))
    (hsum : |sum - (lo + fr)| ≤ |lo + fr| / 2 ^ (53 : ℕ) + 1 / 2 ^ (100 : ℕ))
    (hresult : |result - (sum + e * high)| ≤
      |sum + e * high| / 2 ^ (53 : ℕ) + 1 / 2 ^ (100 : ℕ)) :
    |result - (f + e * two) / ℓ| ≤ 1 / 2 ^ (44 : ℕ) := by
  have pos : 0 < ℓ := by linarith
  have elow : |e * low| ≤ 1074 * (1 / 2 ^ (41 : ℕ)) := abs_mul_le_mul he hlow
  have ehigh : |e * high| ≤ 1074 * (1 / 3) := abs_mul_le_mul he hhigh
  have natural : |logE * (n - f)| ≤ 1 / 2 * (1 / 2 ^ (51 : ℕ)) := abs_mul_le_mul hlogE hn
  have inverse : |f * (logE - 1 / ℓ)| ≤ 1 * (1 / 2 ^ (52 : ℕ)) :=
    abs_mul_le_mul hf (abs_sub_div_le hℓ hten)
  have binary : |e * (high + low - two / ℓ)| ≤ 1074 * (1 / 2 ^ (85 : ℕ)) :=
    abs_mul_le_mul he (abs_sub_div_le hℓ htwo)
  have product : |logE * n| ≤ 1 := by
    rw [mul_sub] at natural
    have size : |logE * f| ≤ 1 / 2 * 1 := abs_mul_le_mul hlogE hf
    have : (1 : ℝ) / 2 * (1 / 2 ^ (51 : ℕ)) ≤ 1 / 2 := by norm_num
    rw [abs_le] at *
    constructor <;> linarith
  have inner : |lo + fr| ≤ 2 := by
    have elow' := abs_le.mp elow
    have product' := abs_le.mp product
    rw [abs_le] at hlo hfr ⊢
    constructor <;> linarith
  have outer : |sum + e * high| ≤ 362 := by
    have inner' := abs_le.mp inner
    have ehigh' := abs_le.mp ehigh
    rw [abs_le] at hsum ⊢
    constructor <;> linarith
  have parts : result - (f + e * two) / ℓ = (result - (sum + e * high)) + (sum - (lo + fr)) +
      (lo - e * low) + (fr - logE * n) + logE * (n - f) + f * (logE - 1 / ℓ) +
      e * (high + low - two / ℓ) := by
    field_simp
    ring
  rw [parts, abs_le]
  rw [abs_le] at hresult hsum hlo hfr natural inverse binary
  constructor <;> linarith

/-- The binary exponent of the fraction that the logarithm is taken of. -/
def fractionBits (units : ℕ) : ℕ := if units.log2 < 1074 then units.log2 + 1 else units.log2

theorem fractionBits_bounds (ne : units ≠ 0) :
    units ≤ 2 * 2 ^ fractionBits units ∧ 2 ^ fractionBits units ≤ 2 * units := by
  have lower := Nat.log2_self_le ne
  have upper := Nat.lt_log2_self (n := units)
  unfold fractionBits
  split_ifs
  · rw [Nat.pow_succ] at *
    omega
  · rw [Nat.pow_succ] at upper
    omega

theorem fractionBits_le (h : Representable units) : fractionBits units ≤ 2148 := by
  obtain ⟨n, l, eq, range, -, limit⟩ := exists_powers_eq
  have := h.2
  rw [limit] at this
  by_cases zero : units = 0
  · rw [zero]
    decide
  · have := (Nat.log2_lt zero).mpr this
    unfold fractionBits
    split_ifs <;> omega

/-- A magnitude as a fraction and a power of two. -/
theorem log_toReal (ne : units ≠ 0) (bits : ℕ) : Real.log (toReal units) =
    Real.log (units / (2 ^ bits : ℕ)) + ((bits : ℤ) - 1074 : ℤ) * Real.log 2 := by
  obtain ⟨n, -, eq, -, power, -⟩ := exists_powers_eq
  have pos : (units : ℝ) ≠ 0 := by exact_mod_cast ne
  rw [toReal, power, Nat.cast_pow, Nat.cast_pow, Real.log_div pos (by positivity),
    Real.log_div pos (by positivity), Real.log_pow, Real.log_pow, eq]
  push_cast
  ring

/-- The logarithm has an absolute error of less than a unit in its last place at the worst. -/
theorem abs_log10_sub_le (h : Representable units) (ne : units ≠ 0) :
    |(log10 units : ℝ) / one - Real.logb 10 (toReal units)| ≤ 1 / 2 ^ (44 : ℕ) := by
  obtain ⟨le, ge⟩ := fractionBits_bounds ne
  have bits_le := fractionBits_le h
  have natural := abs_naturalLog_sub_le (Nat.two_pow_pos (fractionBits units)) le ge
  have size := abs_log_le (Nat.two_pow_pos (fractionBits units)) le ge
  have value := log_toReal ne (fractionBits units)
  have def_eq : log10 units = roundSigned (roundSigned (
      roundSigned (((fractionBits units : ℤ) - 1074) * logTwoLow) 1 +
      roundSigned (logEuler * naturalLog units (2 ^ fractionBits units)) one) 1 +
      ((fractionBits units : ℤ) - 1074) * logTwoHigh) 1 := rfl
  rw [def_eq, Real.logb, value]
  have exponent_le : |(((fractionBits units : ℤ) - 1074 : ℤ) : ℝ)| ≤ 1074 := by
    rw [← Int.cast_abs]
    have : |(fractionBits units : ℤ) - 1074| ≤ 1074 := by
      rw [abs_le]
      omega
    exact_mod_cast this
  generalize ((fractionBits units : ℤ) - 1074) = exponent at *
  generalize naturalLog units (2 ^ fractionBits units) = natural_units at *
  generalize 2 ^ fractionBits units = power at *
  have hlo := abs_roundSigned_div_sub_le (exponent * logTwoLow) Nat.one_pos
  have hfr := abs_roundSigned_div_sub_le (logEuler * natural_units) one_pos
  generalize roundSigned (exponent * logTwoLow) 1 = lo at *
  generalize roundSigned (logEuler * natural_units) one = fr at *
  have hsum := abs_roundSigned_div_sub_le (lo + fr) Nat.one_pos
  generalize roundSigned (lo + fr) 1 = sum at *
  have hresult := abs_roundSigned_div_sub_le (sum + exponent * logTwoHigh) Nat.one_pos
  have two := abs_logTwo_sub_le
  push_cast at hlo hfr hsum hresult two
  simp only [div_one, add_div] at hlo hfr hsum hresult two
  rw [mul_div_assoc] at hlo hresult
  rw [mul_div_right_comm, mul_div_assoc] at hfr
  obtain ⟨high, low, euler, -⟩ := constants_le
  have high := abs_div_one_le (k := 3) (by decide) high
  have low := abs_div_one_le (k := 2 ^ (41 : ℕ)) (by decide) low
  have euler := abs_div_one_le (k := 2) (by decide) euler
  rw [Nat.cast_ofNat] at high euler
  rw [Nat.cast_pow, Nat.cast_ofNat] at low
  exact abs_logarithm_sub_le exponent_le high low euler natural size two abs_logEuler_sub_le
    one_le_log_ten hlo hfr hsum hresult

/-! ## Powers of ten around a magnitude -/

/-- The factor by which a magnitude may lie beyond the power of ten that its logarithm gives. -/
noncomputable def logSlack : ℝ := 1 + 1 / (2 ^ (42 : ℕ) : ℕ)

theorem logSlack_eq : logSlack = 1 + 1 / 2 ^ (42 : ℕ) := by
  rw [logSlack, Nat.cast_pow, Nat.cast_ofNat]

theorem log_ten_le : Real.log 10 ≤ 13 / 5 := by
  have near := (abs_le.mp abs_logEuler_sub_le).2
  have large : (2 : ℝ) / 5 ≤ logEuler / one := by
    have : ((2 * one : ℕ) : ℝ) ≤ (5 * logEuler : ℕ) :=
      Nat.cast_le.mpr constants_le.2.2.2
    push_cast at this
    rw [div_le_div_iff₀ (by norm_num) one_cast_pos]
    linarith
  have := mul_le_mul_of_nonneg_right large (zero_le_one.trans one_le_log_ten)
  linarith

theorem ten_rpow_le_logSlack : (10 : ℝ) ^ ((1 : ℝ) / 2 ^ (44 : ℕ)) ≤ logSlack := by
  rw [Real.rpow_def_of_pos (by norm_num)]
  have small : Real.log 10 * (1 / 2 ^ (44 : ℕ)) ≤ 13 / 5 / 2 ^ (44 : ℕ) := by
    linarith [log_ten_le]
  refine (Real.exp_le_exp.mpr small).trans ?_
  have inverse := Real.add_one_le_exp (-(13 / 5 / 2 ^ (44 : ℕ) : ℝ))
  rw [Real.exp_neg, le_inv_comm₀ (by norm_num) (Real.exp_pos _)] at inverse
  exact inverse.trans (by norm_num [logSlack_eq])

theorem toReal_pos (ne : units ≠ 0) : 0 < toReal units :=
  div_pos (by exact_mod_cast Nat.pos_of_ne_zero ne) one_cast_pos

/-- Exponents that bound the computed logarithm bound the magnitude but for the slack. -/
theorem le_ten_zpow_of_log10_le (h : Representable units) (ne : units ≠ 0)
    (le : (log10 units : ℝ) / one ≤ i) : toReal units ≤ 10 ^ i * logSlack := by
  have near := (abs_le.mp (abs_log10_sub_le h ne)).1
  calc toReal units = (10 : ℝ) ^ Real.logb 10 (toReal units) :=
        (Real.rpow_logb (by norm_num) (by norm_num) (toReal_pos ne)).symm
    _ ≤ (10 : ℝ) ^ ((i : ℝ) + 1 / 2 ^ (44 : ℕ)) :=
        Real.rpow_le_rpow_of_exponent_le (by norm_num) (by linarith)
    _ = (10 : ℝ) ^ i * (10 : ℝ) ^ ((1 : ℝ) / 2 ^ (44 : ℕ)) := by
        rw [Real.rpow_add (by norm_num), Real.rpow_intCast]
    _ ≤ 10 ^ i * logSlack :=
        mul_le_mul_of_nonneg_left ten_rpow_le_logSlack (zpow_nonneg (by norm_num) i)

theorem ten_zpow_le_of_le_log10 (h : Representable units) (ne : units ≠ 0)
    (le : (i : ℝ) ≤ (log10 units : ℝ) / one) : (10 : ℝ) ^ i ≤ toReal units * logSlack := by
  have near := (abs_le.mp (abs_log10_sub_le h ne)).2
  calc (10 : ℝ) ^ i = (10 : ℝ) ^ (i : ℝ) := (Real.rpow_intCast 10 i).symm
    _ ≤ (10 : ℝ) ^ (Real.logb 10 (toReal units) + 1 / 2 ^ (44 : ℕ)) :=
        Real.rpow_le_rpow_of_exponent_le (by norm_num) (by linarith)
    _ = toReal units * (10 : ℝ) ^ ((1 : ℝ) / 2 ^ (44 : ℕ)) := by
        rw [Real.rpow_add (by norm_num),
          Real.rpow_logb (by norm_num) (by norm_num) (toReal_pos ne)]
    _ ≤ toReal units * logSlack :=
        mul_le_mul_of_nonneg_left ten_rpow_le_logSlack (toReal_nonneg units)

theorem floorLog_bounds (h : Representable units) (ne : units ≠ 0) :
    (10 : ℝ) ^ floorLog units ≤ toReal units * logSlack ∧
      toReal units ≤ 10 ^ (floorLog units + 1) * logSlack := by
  have unit := one_cast_pos
  have positive : (0 : ℤ) < one := by exact_mod_cast one_pos
  constructor
  · refine ten_zpow_le_of_le_log10 h ne ((le_div_iff₀ unit).mpr ?_)
    exact_mod_cast Int.ediv_mul_le (log10 units) positive.ne'
  · refine le_ten_zpow_of_log10_le h ne ((div_le_iff₀ unit).mpr ?_)
    exact_mod_cast (Int.lt_ediv_add_one_mul_self (log10 units) positive).le

theorem ceilLog_bounds (h : Representable units) (ne : units ≠ 0) :
    toReal units ≤ 10 ^ ceilLog units * logSlack ∧
      (10 : ℝ) ^ (ceilLog units - 1) ≤ toReal units * logSlack := by
  have unit := one_cast_pos
  have positive : (0 : ℤ) < one := by exact_mod_cast one_pos
  have lower := Int.ediv_mul_le (-log10 units) positive.ne'
  have upper := (Int.lt_ediv_add_one_mul_self (-log10 units) positive).le
  constructor
  · refine le_ten_zpow_of_log10_le h ne ((div_le_iff₀ unit).mpr ?_)
    have : log10 units ≤ ceilLog units * one := by
      rw [ceilLog, neg_mul]
      omega
    exact_mod_cast this
  · refine ten_zpow_le_of_le_log10 h ne ((le_div_iff₀ unit).mpr ?_)
    have : (ceilLog units - 1) * one ≤ log10 units := by
      rw [ceilLog, show -(-log10 units / (one : ℤ)) - 1 = -(-log10 units / (one : ℤ) + 1) by ring,
        neg_mul]
      omega
    exact_mod_cast this

/-- The power below a number moves it to a place counted from above. -/
theorem mul_zpow_sub_le {n : ℕ} {s : ℝ} (le : x ≤ 10 ^ i * s) :
    x * 10 ^ (n - i : ℤ) ≤ 10 ^ n * s := by
  have moved := mul_le_mul_of_nonneg_right le
    (zpow_nonneg (show (0 : ℝ) ≤ 10 by norm_num) (n - i : ℤ))
  rwa [mul_right_comm, ← zpow_add₀ (by norm_num), add_sub_cancel, zpow_natCast] at moved

/-! ## Powers of ten -/

/-- The power of five in a power of ten has to fit into 53 bits. -/
theorem le_of_precise_ten_pow {a : ℕ} (precise : Precise (10 ^ a * one)) : a ≤ 22 := by
  obtain ⟨p, -, -, -, two, -⟩ := exists_powers_eq
  by_contra many
  have five : 2 ^ (53 : ℕ) ≤ 5 ^ a :=
    Nat.le_trans (by decide) (Nat.pow_le_pow_right (show 0 < 5 by decide) (Nat.lt_of_not_le many))
  have split : 10 ^ a * one = 5 ^ a * 2 ^ (a + p) := by
    rw [two, Nat.pow_add, ← Nat.mul_assoc, ← Nat.mul_pow]
  have log : 53 + (a + p) ≤ (10 ^ a * one).log2 := by
    rw [Nat.le_log2 (by rw [split]; positivity), split, Nat.pow_add]
    exact Nat.mul_le_mul_right _ five
  have dvd : 2 * 2 ^ (a + p) ∣ 5 ^ a * 2 ^ (a + p) := by
    rw [← Nat.pow_succ', ← split]
    exact Nat.dvd_trans (Nat.pow_dvd_pow 2 (by omega)) precise
  have even := Nat.dvd_of_mul_dvd_mul_right (Nat.two_pow_pos _) dvd
  exact absurd (Nat.prime_two.dvd_of_dvd_pow even) (by decide)

/-- A power of ten is represented when it is a whole one of at most 22 zeros. -/
theorem exists_eq_of_toReal_eq_zpow (h : Representable units) (eq : toReal units = (10 : ℝ) ^ i) :
    ∃ a : ℕ, a ≤ 22 ∧ i = a ∧ units = 10 ^ a * one := by
  rw [toReal, div_eq_iff one_cast_pos.ne'] at eq
  obtain ⟨a, rfl | rfl⟩ := Int.eq_nat_or_neg i
  · have whole : units = 10 ^ a * one := by exact_mod_cast eq
    exact ⟨a, le_of_precise_ten_pow (whole ▸ h.1), rfl, whole⟩
  · cases a with
    | zero =>
      rw [Nat.cast_zero, neg_zero, zpow_zero, one_mul] at eq
      refine ⟨0, by decide, rfl, ?_⟩
      rw [Nat.pow_zero, Nat.one_mul]
      exact_mod_cast eq
    | succ a =>
      obtain ⟨p, -, -, -, two, -⟩ := exists_powers_eq
      have product : units * 10 ^ (a + 1) = 2 ^ p := by
        rw [two, zpow_neg, zpow_natCast, inv_mul_eq_div, eq_div_iff (by positivity)] at eq
        exact_mod_cast eq
      have dvd : 5 ∣ 2 ^ p := by
        rw [← product]
        exact Nat.dvd_mul_left_of_dvd (show 5 ∣ 10 ^ (a + 1) by
          rw [Nat.pow_succ]
          exact Nat.dvd_mul_left_of_dvd (by decide) _) _
      exact absurd (Nat.prime_five.dvd_of_dvd_pow dvd) (by decide)

theorem floorLog_of_toReal_eq (h : Representable units) (eq : toReal units = (10 : ℝ) ^ i) :
    floorLog units = i := by
  obtain ⟨a, le, exponent, whole⟩ := exists_eq_of_toReal_eq_zpow h eq
  have all : ∀ a : ℕ, a < 23 → floorLog (10 ^ a * one) = a := by decide +kernel
  rw [whole, exponent, all a (Nat.lt_succ_of_le le)]

end Magnitude

end DecimalPattern
