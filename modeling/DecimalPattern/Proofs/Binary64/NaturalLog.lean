import DecimalPattern.Binary64.Logarithm
import DecimalPattern.Proofs.Binary64.RelativeError
import Mathlib.Analysis.SpecialFunctions.Log.Deriv

/-! # The series of the natural logarithm

The fixed-point series with `t = (num - den) / (num + den)` differs from the logarithm of
`num / den` by the error of `t`, the truncation of the series and the floors of its terms. All of
them are far below the last place of a magnitude.
-/

namespace DecimalPattern

-- Powers of natural numbers are the built-in ones, also beside the monoids of algebra.
attribute [local instance (2000)] instPowNat

namespace Magnitude

variable {a b num den n k odd square : ℕ} {x y τ : ℝ}

/-! ## Floors -/

theorem abs_natDiv_sub_le (a : ℕ) (pos : 0 < b) : |((a / b : ℕ) : ℝ) - a / b| ≤ 1 := by
  have scale : (0 : ℝ) < b := by exact_mod_cast pos
  have lower : ((a / b * b : ℕ) : ℝ) ≤ a := by exact_mod_cast Nat.div_mul_le_self a b
  have upper : (a : ℝ) ≤ ((a / b * b + b : ℕ) : ℝ) := by
    exact_mod_cast (Nat.lt_div_mul_add pos).le
  push_cast at lower upper
  rw [abs_le]
  constructor
  · rw [neg_le_sub_iff_le_add, div_le_iff₀ scale]
    linarith
  · have := (le_div_iff₀ scale).mpr lower
    linarith

theorem abs_intDiv_sub_le (i : ℤ) (pos : 0 < b) : |((i / b : ℤ) : ℝ) - i / b| ≤ 1 := by
  have scale : (0 : ℝ) < b := by exact_mod_cast pos
  have lower : ((i / b * b : ℤ) : ℝ) ≤ i := by
    exact_mod_cast Int.ediv_mul_le i (by omega)
  have upper : (i : ℝ) ≤ (((i / b + 1) * b : ℤ) : ℝ) := by
    exact_mod_cast (Int.lt_ediv_add_one_mul_self i (by exact_mod_cast pos)).le
  push_cast at lower upper
  rw [abs_le]
  constructor
  · rw [neg_le_sub_iff_le_add, div_le_iff₀ scale]
    linarith
  · have := (le_div_iff₀ scale).mpr lower
    linarith

theorem abs_div_sub_div_le {p q c δ : ℝ} (pos : 0 < c) (near : |p - q| ≤ δ) :
    |p / c - q / c| ≤ δ / c := by
  rw [← sub_div, abs_div, abs_of_pos pos]
  exact div_le_div_of_nonneg_right near pos.le

theorem abs_mul_le_mul {p q r s : ℝ} (hp : |p| ≤ r) (hq : |q| ≤ s) : |p * q| ≤ r * s := by
  rw [abs_mul]
  exact mul_le_mul hp hq (abs_nonneg q) ((abs_nonneg p).trans hp)

/-- A sign that is put back does not add to an error. -/
theorem abs_sign_mul_sub_le (i : ℤ) (p c : ℝ) : |i.sign * p - i / c| ≤ |p - i.natAbs / c| := by
  have sign_le : |(i.sign : ℝ)| ≤ 1 := by
    rcases Int.sign_trichotomy i with h | h | h <;> norm_num [h]
  have whole : (i : ℝ) = i.sign * i.natAbs := by
    rw [Nat.cast_natAbs]
    exact_mod_cast (Int.sign_mul_abs i).symm
  have factor : i.sign * p - i / c = i.sign * (p - i.natAbs / c) := by
    rw [mul_sub, ← mul_div_assoc, ← whole]
  rw [factor, abs_mul]
  exact mul_le_of_le_one_left (abs_nonneg _) sign_le

/-! ## The sum of the odd terms -/

/-- The exact value of the sum over `square ^ i / (odd + 2 * i)`. -/
noncomputable def oddSum (y : ℝ) : (terms odd : ℕ) → ℝ
  | 0, _ => 0
  | terms + 1, odd => 1 / odd + y * oddSum y terms (odd + 2)

theorem oddSum_bounds (nonneg : 0 ≤ y) (le : y ≤ 1 / 5) (pos : 0 < odd) :
    0 ≤ oddSum y n odd ∧ oddSum y n odd ≤ 2 := by
  induction n generalizing odd with
  | zero => simp [oddSum]
  | succ n ih =>
    obtain ⟨lower, upper⟩ := ih (show 0 < odd + 2 by omega)
    have first : (1 : ℝ) / odd ≤ 1 := by
      rw [div_le_one (by exact_mod_cast pos)]
      exact_mod_cast pos
    have rest : y * oddSum y n (odd + 2) ≤ 1 / 5 * 2 := mul_le_mul le upper lower (by norm_num)
    rw [oddSum]
    constructor
    · positivity
    · linarith

theorem mul_oddSum (x : ℝ) (n k : ℕ) :
    x * oddSum (x ^ 2) n (2 * k + 1) =
      ∑ i ∈ Finset.range n, x ^ (2 * i + 1) / (2 * (i + k : ℕ) + 1) := by
  induction n generalizing k with
  | zero => simp [oddSum]
  | succ n ih =>
    have step := ih (k + 1)
    rw [Finset.sum_range_succ', oddSum, show 2 * k + 1 + 2 = 2 * (k + 1) + 1 by ring, mul_add,
      mul_left_comm, step, Finset.mul_sum]
    push_cast
    rw [add_comm]
    congr 1
    · refine Finset.sum_congr rfl fun i _ => ?_
      ring
    · ring

theorem two_pow_le_seriesOne (le : n ≤ 256) : 2 ^ n ≤ seriesOne :=
  Nat.pow_le_pow_right Nat.two_pos le

theorem seriesOne_large : (100 : ℝ) ≤ seriesOne := by
  have : ((100 : ℕ) : ℝ) ≤ seriesOne :=
    Nat.cast_le.mpr (Nat.le_trans (by decide) (two_pow_le_seriesOne (n := 7) (by decide)))
  exact_mod_cast this

theorem seriesOne_cast_pos : (0 : ℝ) < seriesOne := by linarith [seriesOne_large]

theorem one_div_seriesOne_le : 1 / (seriesOne : ℝ) ≤ 1 / 2 ^ (255 : ℕ) := by
  have : ((2 ^ (255 : ℕ) : ℕ) : ℝ) ≤ seriesOne :=
    Nat.cast_le.mpr (two_pow_le_seriesOne (by decide))
  rw [Nat.cast_pow, Nat.cast_ofNat] at this
  exact one_div_le_one_div_of_le (by positivity) this

/-- Each term adds two floors, and the earlier error shrinks with the square. -/
theorem abs_oddSeries_sub_le (nonneg : 0 ≤ y) (le : y ≤ 1 / 5)
    (near : |(square : ℝ) - seriesOne * y| ≤ 1) (n : ℕ) (pos : 0 < odd) :
    |(oddSeries square n odd : ℝ) - seriesOne * oddSum y n odd| ≤ 6 := by
  have scale := seriesOne_cast_pos
  have large := seriesOne_large
  induction n generalizing odd with
  | zero => norm_num [oddSeries, oddSum]
  | succ n ih =>
    have earlier := ih (show 0 < odd + 2 by omega)
    obtain ⟨lower, upper⟩ := oddSum_bounds (n := n) nonneg le (show 0 < odd + 2 by omega)
    have first := abs_natDiv_sub_le seriesOne pos
    have second := abs_natDiv_sub_le (square * oddSeries square n (odd + 2))
      (show 0 < seriesOne by exact_mod_cast scale)
    rw [oddSeries, oddSum]
    push_cast at second ⊢
    generalize (oddSeries square n (odd + 2) : ℝ) = series at *
    generalize oddSum y n (odd + 2) = sum at *
    generalize (seriesOne : ℝ) = one at *
    -- The exact product of the rounded factors and the rounded square times the exact sum.
    have ratio : (square : ℝ) / one ≤ 1 / 4 := by
      rw [div_le_iff₀ scale]
      have := (abs_le.mp near).2
      nlinarith
    have shrunk : |square / one * (series - one * sum)| ≤ 1 / 4 * 6 :=
      abs_mul_le_mul ((abs_of_nonneg (by positivity)).trans_le ratio) earlier
    have moved : |((square : ℝ) - one * y) * sum| ≤ 1 * 2 :=
      abs_mul_le_mul near ((abs_of_nonneg lower).trans_le upper)
    have total (p q : ℝ) : p + q - one * (1 / odd + y * sum) = p - one / odd +
        (q - square * series / one) + square / one * (series - one * sum) +
        (square - one * y) * sum := by
      field_simp
      ring
    rw [total]
    refine (abs_add_le _ _).trans ?_
    have := abs_add_three (((seriesOne / odd : ℕ) : ℝ) - one / odd)
      (((square * oddSeries square n (odd + 2) / seriesOne : ℕ) : ℝ) - square * series / one)
      (square / one * (series - one * sum))
    linarith

/-! ## The logarithm of a quotient -/

/-- The series before it is rounded, in the square of the fixed-point unit. -/
def seriesSum (num den : ℕ) : ℤ :=
  let t := ((num : ℤ) - den) * seriesOne / (num + den)
  2 * t * oddSeries (t * t / seriesOne).toNat 80 1

theorem naturalLog_eq (num den : ℕ) : naturalLog num den = (seriesSum num den).sign *
    (roundGuarded (seriesSum num den).natAbs * one / (seriesOne * seriesOne) : ℕ) := rfl

theorem abs_log_sub_log_le {a b m : ℝ} (pos : 0 < m) (ha : m ≤ a) (hb : m ≤ b) :
    |Real.log a - Real.log b| ≤ |a - b| / m := by
  have one_sided {c d : ℝ} (hc : m ≤ c) (hd : m ≤ d) :
      Real.log c - Real.log d ≤ |c - d| / m := by
    have cpos := pos.trans_le hc
    have dpos := pos.trans_le hd
    calc Real.log c - Real.log d = Real.log (c / d) := (Real.log_div cpos.ne' dpos.ne').symm
      _ ≤ c / d - 1 := Real.log_le_sub_one_of_pos (div_pos cpos dpos)
      _ = (c - d) / d := by rw [sub_div, div_self dpos.ne']
      _ ≤ |c - d| / d := div_le_div_of_nonneg_right (le_abs_self _) dpos.le
      _ ≤ |c - d| / m := div_le_div_of_nonneg_left (abs_nonneg _) pos hd
  rw [abs_le]
  have above := one_sided ha hb
  have below := one_sided hb ha
  rw [abs_sub_comm] at below
  constructor <;> linarith

/-- Near arguments have near logarithms. -/
theorem abs_log_quotient_sub_le (hx : |x| ≤ 2 / 5) (hτ : |τ| ≤ 2 / 5) :
    |Real.log ((1 + x) / (1 - x)) - Real.log ((1 + τ) / (1 - τ))| ≤ 4 * |x - τ| := by
  rw [abs_le] at hx hτ
  rw [Real.log_div (by linarith) (by linarith), Real.log_div (by linarith) (by linarith)]
  have above := abs_log_sub_log_le (m := 3 / 5) (a := 1 + x) (b := 1 + τ) (by norm_num)
    (by linarith) (by linarith)
  have below := abs_log_sub_log_le (m := 3 / 5) (a := 1 - x) (b := 1 - τ) (by norm_num)
    (by linarith) (by linarith)
  rw [show 1 + x - (1 + τ) = x - τ by ring] at above
  rw [show 1 - x - (1 - τ) = -(x - τ) by ring, abs_neg] at below
  rw [abs_le] at *
  constructor <;> linarith [abs_nonneg (x - τ)]

/-- Eighty terms of the series. -/
theorem abs_two_mul_oddSum_sub_le (hx : |x| ≤ 2 / 5) :
    |2 * x * oddSum (x ^ 2) 80 1 - Real.log ((1 + x) / (1 - x))| ≤ 1 / 2 ^ (205 : ℕ) := by
  have rest := Real.sum_range_sub_log_div_le (x := x) (by linarith) 80
  have terms := mul_oddSum x 80 0
  simp only [Nat.mul_zero, Nat.zero_add, Nat.add_zero] at terms
  rw [← terms] at rest
  have square : x ^ 2 ≤ (2 / 5) ^ 2 := by
    rw [← sq_abs]
    exact pow_le_pow_left₀ (abs_nonneg x) hx 2
  have tail : |x| ^ (2 * 80 + 1) / (1 - x ^ 2) ≤ (2 / 5) ^ (2 * 80 + 1) / (1 - (2 / 5) ^ 2) := by
    gcongr
  have small : ((2 : ℝ) / 5) ^ (2 * 80 + 1) / (1 - (2 / 5) ^ 2) ≤ 1 / 2 ^ (206 : ℕ) := by norm_num
  rw [show 2 * x * oddSum (x ^ 2) 80 1 - Real.log ((1 + x) / (1 - x)) =
    -2 * (1 / 2 * Real.log ((1 + x) / (1 - x)) - x * oddSum (x ^ 2) 80 1) by ring, abs_mul]
  have : |(-2 : ℝ)| = 2 := by norm_num
  rw [this]
  calc 2 * |1 / 2 * Real.log ((1 + x) / (1 - x)) - x * oddSum (x ^ 2) 80 1|
      ≤ 2 * (1 / 2 ^ (206 : ℕ)) := by linarith
    _ = 1 / 2 ^ (205 : ℕ) := by norm_num

theorem abs_argument_le (pos : 0 < den) (le : num ≤ 2 * den) (ge : den ≤ 2 * num) :
    |((num : ℝ) - den) / (num + den)| ≤ 1 / 3 := by
  have pos : (0 : ℝ) < den := by exact_mod_cast pos
  have le : (num : ℝ) ≤ 2 * den := by exact_mod_cast le
  have ge : (den : ℝ) ≤ 2 * num := by exact_mod_cast ge
  have sum_pos : (0 : ℝ) < num + den := by linarith
  rw [abs_le, le_div_iff₀ sum_pos, div_le_iff₀ sum_pos]
  constructor <;> linarith

/-- The series takes the logarithm of the quotient, by way of its argument. -/
theorem argument_quotient (pos : 0 < den) :
    (1 + ((num : ℝ) - den) / (num + den)) / (1 - ((num : ℝ) - den) / (num + den)) = num / den := by
  have pos : (0 : ℝ) < den := by exact_mod_cast pos
  have sum_ne : (num : ℝ) + den ≠ 0 := by positivity
  rw [one_add_div sum_ne, one_sub_div sum_ne, div_div_div_cancel_right₀ sum_ne,
    show (num : ℝ) + den + (num - den) = 2 * num by ring,
    show (num : ℝ) + den - (num - den) = 2 * den by ring, mul_div_mul_left _ _ two_ne_zero]

/-- The floors of the terms cost less than five units of the series. -/
theorem abs_roundedSum_sub_le {t : ℤ} (bound : |(t : ℝ) / seriesOne| ≤ 2 / 5)
    (near : |(square : ℝ) - seriesOne * (t / seriesOne) ^ 2| ≤ 1) :
    |((2 * t * oddSeries square 80 1 : ℤ) : ℝ) / seriesOne ^ 2 -
      2 * (t / seriesOne) * oddSum ((t / seriesOne) ^ 2) 80 1| ≤ 5 * (1 / (seriesOne : ℝ)) := by
  have scale := seriesOne_cast_pos
  have square_le : ((t : ℝ) / seriesOne) ^ 2 ≤ 1 / 5 := by
    rw [← sq_abs]
    calc |(t : ℝ) / seriesOne| ^ 2 ≤ (2 / 5) ^ 2 := pow_le_pow_left₀ (abs_nonneg _) bound 2
      _ ≤ 1 / 5 := by norm_num
  have terms := abs_oddSeries_sub_le (sq_nonneg _) square_le near 80 Nat.one_pos
  push_cast
  rw [show (2 * t * oddSeries square 80 1 : ℝ) / seriesOne ^ 2 -
      2 * (t / seriesOne) * oddSum ((t / seriesOne) ^ 2) 80 1 = 2 * (t / seriesOne) *
      (oddSeries square 80 1 - seriesOne * oddSum ((t / seriesOne) ^ 2) 80 1) *
        (1 / seriesOne) by field_simp, abs_mul, abs_mul, abs_mul, abs_of_pos (one_div_pos.mpr scale)]
  refine mul_le_mul_of_nonneg_right ?_ (one_div_pos.mpr scale).le
  calc |(2 : ℝ)| * |(t : ℝ) / seriesOne| * |(oddSeries square 80 1 : ℝ) -
        seriesOne * oddSum ((t / seriesOne) ^ 2) 80 1| ≤ 2 * (2 / 5) * 6 := by
        rw [abs_of_pos (two_pos (α := ℝ))]
        gcongr
    _ ≤ 5 := by norm_num

/-- The argument of the series and its square are floors. -/
theorem exists_seriesSum_eq (pos : 0 < den) (le : num ≤ 2 * den) (ge : den ≤ 2 * num) :
    ∃ (t : ℤ) (square : ℕ), seriesSum num den = 2 * t * oddSeries square 80 1 ∧
      |(t : ℝ) / seriesOne - ((num : ℝ) - den) / (num + den)| ≤ 1 / seriesOne ∧
      |(square : ℝ) - seriesOne * (t / seriesOne) ^ 2| ≤ 1 := by
  have scale := seriesOne_cast_pos
  have whole : 0 < seriesOne := by exact_mod_cast scale
  refine ⟨_, _, rfl, ?_⟩
  have near := abs_intDiv_sub_le (((num : ℤ) - den) * seriesOne) (show 0 < num + den by omega)
  push_cast at near ⊢
  generalize ((num : ℤ) - den) * seriesOne / (num + den) = t at *
  constructor
  · have factor : (t : ℝ) / seriesOne - ((num : ℝ) - den) / (num + den) =
        (t - ((num : ℝ) - den) * seriesOne / (num + den)) / seriesOne := by
      field_simp
    rw [factor, abs_div, abs_of_pos scale]
    exact div_le_div_of_nonneg_right near scale.le
  · have square := abs_intDiv_sub_le (t * t) whole
    have nonneg : 0 ≤ t * t / seriesOne := Int.ediv_nonneg (mul_self_nonneg t) (by omega)
    have cast : ((t * t / seriesOne).toNat : ℝ) = ((t * t / seriesOne : ℤ) : ℝ) := by
      exact_mod_cast congrArg (Int.cast : ℤ → ℝ) (Int.toNat_of_nonneg nonneg)
    have value : (seriesOne : ℝ) * (t / seriesOne) ^ 2 = t * t / seriesOne := by
      field_simp
    rw [cast, value]
    push_cast at square
    exact square

/-- The series is far more precise than a magnitude. -/
theorem abs_seriesSum_sub_le (pos : 0 < den) (le : num ≤ 2 * den) (ge : den ≤ 2 * num) :
    |(seriesSum num den : ℝ) / seriesOne ^ 2 - Real.log (num / den)| ≤ 1 / 2 ^ (200 : ℕ) := by
  have third := abs_argument_le pos le ge
  obtain ⟨t, square, eq, argument, near⟩ := exists_seriesSum_eq pos le ge
  have tiny := one_div_seriesOne_le
  have bound : |(t : ℝ) / seriesOne| ≤ 2 / 5 := by
    rw [abs_le] at *
    have : (1 : ℝ) / 2 ^ (255 : ℕ) ≤ 1 / 100 := by norm_num
    constructor <;> linarith
  have truncated := abs_two_mul_oddSum_sub_le bound
  have moved := abs_log_quotient_sub_le bound (third.trans (by norm_num))
  rw [argument_quotient pos] at moved
  replace moved := moved.trans (mul_le_mul_of_nonneg_left argument (by norm_num))
  -- The rounded sum, the exact sum, the logarithm at the rounded argument and the logarithm.
  have rounded := abs_roundedSum_sub_le bound near
  rw [← eq] at rounded
  have total : 9 * (1 / 2 ^ (255 : ℕ)) + 1 / 2 ^ (205 : ℕ) ≤ (1 : ℝ) / 2 ^ (200 : ℕ) := by norm_num
  rw [abs_le] at *
  constructor <;> linarith

/-! ## The rounded logarithm -/

theorem roundGuarded_bounds (n : ℕ) : ∃ grid, grid * 2 ^ (61 : ℕ) ≤ n + 2 ^ (61 : ℕ) ∧
    roundGuarded n ≤ n + 2 ^ (9 : ℕ) * grid ∧ n ≤ roundGuarded n + 2 ^ (9 : ℕ) * grid := by
  have pos : 0 < 2 ^ (n.log2 - 61) := Nat.two_pow_pos _
  refine ⟨2 ^ (n.log2 - 61), ?_, ?_⟩
  · rcases Nat.lt_or_ge n.log2 61 with small | large
    · rw [Nat.sub_eq_zero_of_le small.le]
      omega
    · have ne : n ≠ 0 := by
        rintro rfl
        simp at large
      rw [← Nat.pow_add, Nat.sub_add_cancel large]
      exact Nat.le_add_right_of_le (Nat.log2_self_le ne)
  · obtain ⟨lower, upper⟩ := roundQuotient_bounds n pos
    rw [roundGuarded]
    generalize 2 ^ (n.log2 - 61) = grid at *
    generalize roundQuotient n grid = q at *
    -- The last nine bits are rounded too.
    have above : (q + 2 ^ (8 : ℕ)) / 2 ^ (9 : ℕ) * 2 ^ (9 : ℕ) ≤ q + 2 ^ (8 : ℕ) :=
      Nat.div_mul_le_self _ _
    have below : q ≤ (q + 2 ^ (8 : ℕ)) / 2 ^ (9 : ℕ) * 2 ^ (9 : ℕ) + 2 ^ (8 : ℕ) := by omega
    have above := Nat.mul_le_mul_right grid above
    have below := Nat.mul_le_mul_right grid below
    rw [Nat.add_mul] at above below
    omega

theorem abs_roundGuarded_sub_le (n : ℕ) :
    |(roundGuarded n : ℝ) - n| ≤ n / 2 ^ (52 : ℕ) + 2 ^ (9 : ℕ) := by
  obtain ⟨grid, small, above, below⟩ := roundGuarded_bounds n
  have small : (grid * 2 ^ (61 : ℕ) : ℝ) ≤ n + 2 ^ (61 : ℕ) := by exact_mod_cast small
  have above : (roundGuarded n : ℝ) ≤ n + 2 ^ (9 : ℕ) * grid := by exact_mod_cast above
  have below : (n : ℝ) ≤ roundGuarded n + 2 ^ (9 : ℕ) * grid := by exact_mod_cast below
  rw [abs_le]
  constructor <;> linarith

theorem abs_log_le (pos : 0 < den) (le : num ≤ 2 * den) (ge : den ≤ 2 * num) :
    |Real.log (num / den)| ≤ 1 := by
  have dpos : (0 : ℝ) < den := by exact_mod_cast pos
  have npos : (0 : ℝ) < num := by
    have : 0 < num := by omega
    exact_mod_cast this
  have le : (num / den : ℝ) ≤ 2 := by
    rw [div_le_iff₀ dpos]
    exact_mod_cast le
  have ge : (den / num : ℝ) ≤ 2 := by
    rw [div_le_iff₀ npos]
    exact_mod_cast ge
  have above := Real.log_le_sub_one_of_pos (div_pos npos dpos)
  have below := Real.log_le_sub_one_of_pos (div_pos dpos npos)
  rw [← inv_div, Real.log_inv, inv_div] at below
  rw [abs_le]
  constructor <;> linarith

theorem one_div_one_le : 1 / (one : ℝ) ≤ 1 / 2 ^ (100 : ℕ) := by
  have : ((2 ^ (100 : ℕ) : ℕ) : ℝ) ≤ one := Nat.cast_le.mpr (two_pow_le_one (by decide))
  rw [Nat.cast_pow, Nat.cast_ofNat] at this
  exact one_div_le_one_div_of_le (by positivity) this

/-- The absolute value is rounded to 53 bits and cut to units. -/
theorem abs_guardedUnits_sub_le (n : ℕ) :
    |((roundGuarded n * one / (seriesOne * seriesOne) : ℕ) : ℝ) / one - n / seriesOne ^ 2| ≤
      n / seriesOne ^ 2 / 2 ^ (52 : ℕ) + 1 / 2 ^ (99 : ℕ) := by
  have scale := seriesOne_cast_pos
  have unit := one_cast_pos
  have tiny := one_div_one_le
  have fine : 2 ^ (9 : ℕ) / (seriesOne : ℝ) ^ 2 ≤ 1 / 2 ^ (100 : ℕ) := by
    have : ((2 ^ (109 : ℕ) : ℕ) : ℝ) ≤ (seriesOne ^ 2 : ℕ) :=
      Nat.cast_le.mpr (Nat.le_trans (two_pow_le_seriesOne (by decide)) (Nat.le_self_pow (by decide) _))
    rw [Nat.cast_pow, Nat.cast_ofNat, Nat.cast_pow] at this
    rw [div_le_div_iff₀ (by positivity) (by positivity)]
    linarith
  have floor := abs_div_sub_div_le unit (abs_natDiv_sub_le (roundGuarded n * one)
    (show 0 < seriesOne * seriesOne by exact_mod_cast mul_pos scale scale))
  have guarded := abs_div_sub_div_le (pow_pos scale 2) (abs_roundGuarded_sub_le n)
  have value : ((roundGuarded n * one : ℕ) : ℝ) / (seriesOne * seriesOne : ℕ) / one =
      roundGuarded n / seriesOne ^ 2 := by
    rw [Nat.cast_mul, Nat.cast_mul, div_right_comm, mul_div_cancel_right₀ _ unit.ne', sq]
  have parts : ((n : ℝ) / 2 ^ (52 : ℕ) + 2 ^ (9 : ℕ)) / (seriesOne : ℝ) ^ 2 =
      n / seriesOne ^ 2 / 2 ^ (52 : ℕ) + 2 ^ (9 : ℕ) / (seriesOne : ℝ) ^ 2 := by
    rw [add_div, div_right_comm]
  have sum : (1 : ℝ) / 2 ^ (100 : ℕ) + 1 / 2 ^ (100 : ℕ) = 1 / 2 ^ (99 : ℕ) := by norm_num
  rw [value] at floor
  rw [parts] at guarded
  calc |((roundGuarded n * one / (seriesOne * seriesOne) : ℕ) : ℝ) / one - n / seriesOne ^ 2|
      ≤ |((roundGuarded n * one / (seriesOne * seriesOne) : ℕ) : ℝ) / one -
            roundGuarded n / seriesOne ^ 2| +
          |(roundGuarded n : ℝ) / seriesOne ^ 2 - n / seriesOne ^ 2| := abs_sub_le _ _ _
    _ ≤ n / seriesOne ^ 2 / 2 ^ (52 : ℕ) + 1 / 2 ^ (99 : ℕ) := by linarith

/-- Rounded to 53 bits and to units the logarithm keeps an absolute error of one bit less. -/
theorem abs_naturalLog_sub_le (pos : 0 < den) (le : num ≤ 2 * den) (ge : den ≤ 2 * num) :
    |(naturalLog num den : ℝ) / one - Real.log (num / den)| ≤ 1 / 2 ^ (51 : ℕ) := by
  have scale := seriesOne_cast_pos
  have series := abs_seriesSum_sub_le pos le ge
  have size := abs_log_le pos le ge
  rw [naturalLog_eq]
  generalize seriesSum num den = s at *
  have absolute := abs_guardedUnits_sub_le s.natAbs
  generalize roundGuarded s.natAbs * one / (seriesOne * seriesOne) = units at *
  have size : (s.natAbs : ℝ) / seriesOne ^ 2 = |(s : ℝ) / seriesOne ^ 2| := by
    rw [Nat.cast_natAbs, Int.cast_abs, abs_div, abs_of_nonneg (sq_nonneg (seriesOne : ℝ))]
  have signed := abs_sign_mul_sub_le s (units / one) (seriesOne ^ 2)
  rw [size] at absolute signed
  have rounded : ((s.sign * units : ℤ) : ℝ) / one = s.sign * (units / one) := by
    rw [Int.cast_mul, Int.cast_natCast, mul_div_assoc]
  have bound : |(s : ℝ) / seriesOne ^ 2| ≤ 1 + 1 / 2 ^ (200 : ℕ) := by
    rw [abs_le] at *
    constructor <;> linarith
  rw [rounded]
  calc |s.sign * ((units : ℝ) / one) - Real.log (num / den)|
      ≤ |s.sign * ((units : ℝ) / one) - s / seriesOne ^ 2| +
          |(s : ℝ) / seriesOne ^ 2 - Real.log (num / den)| := abs_sub_le _ _ _
    _ ≤ (1 + 1 / 2 ^ (200 : ℕ)) / 2 ^ (52 : ℕ) + 1 / 2 ^ (99 : ℕ) + 1 / 2 ^ (200 : ℕ) := by
      have := div_le_div_of_nonneg_right bound (show (0 : ℝ) ≤ 2 ^ (52 : ℕ) by positivity)
      linarith
    _ ≤ 1 / 2 ^ (51 : ℕ) := by norm_num

end Magnitude

end DecimalPattern
