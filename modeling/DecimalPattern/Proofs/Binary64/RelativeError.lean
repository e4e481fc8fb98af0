import DecimalPattern.Proofs.Binary64.HalfEven
import Mathlib.Algebra.Order.Ring.Pow
import Mathlib.Data.Real.Basic
import Mathlib.Tactic.Linarith
import Mathlib.Tactic.Positivity
import Mathlib.Tactic.FieldSimp
import Mathlib.Tactic.Ring

/-! # Relative errors

One rounding of a number in the normal range changes it by a factor of at most `1 + 2⁻⁵³`, up or
down. Factors multiply along products and quotients, so that the error of a chain of operations is
a count of roundings. Every power of ten below the limit is a chain of products.
-/

namespace DecimalPattern

-- Powers of natural numbers are the built-in ones, also beside the monoids of algebra.
attribute [local instance (2000)] instPowNat

/-! ## Numbers some roundings apart -/

/-- The most that one rounding moves a number. -/
noncomputable def slack : ℝ := 1 + 1 / 2 ^ (53 : ℕ)

theorem slack_pos : 0 < slack := by
  unfold slack
  positivity

theorem one_le_slack : 1 ≤ slack := by
  unfold slack
  linarith [show (0 : ℝ) ≤ 1 / 2 ^ (53 : ℕ) by positivity]

/-- Some roundings together move a number by little more than so many times one. -/
theorem slack_pow_mul_le (k : ℕ) : slack ^ k * (1 - k / 2 ^ (53 : ℕ)) ≤ 1 := by
  have step : slack * (1 - 1 / 2 ^ (53 : ℕ)) ≤ 1 := by norm_num [slack]
  have below : 1 + (k : ℝ) * (-1 / 2 ^ (53 : ℕ)) ≤ (1 + -1 / 2 ^ (53 : ℕ)) ^ k :=
    one_add_mul_le_pow (by norm_num) k
  calc slack ^ k * (1 - k / 2 ^ (53 : ℕ))
      = slack ^ k * (1 + (k : ℝ) * (-1 / 2 ^ (53 : ℕ))) := by ring
    _ ≤ slack ^ k * (1 + -1 / 2 ^ (53 : ℕ)) ^ k :=
        mul_le_mul_of_nonneg_left below (pow_nonneg slack_pos.le k)
    _ = (slack * (1 - 1 / 2 ^ (53 : ℕ))) ^ k := by rw [← mul_pow]; ring
    _ ≤ 1 := pow_le_one₀ (by norm_num [slack]) step

theorem slack_pow_le_two {k : ℕ} (few : k ≤ 2 ^ (52 : ℕ)) : slack ^ k ≤ 2 := by
  have bound := slack_pow_mul_le k
  have few : (k : ℝ) ≤ 2 ^ (52 : ℕ) := by exact_mod_cast few
  have half : (1 : ℝ) / 2 ≤ 1 - k / 2 ^ (53 : ℕ) := by
    rw [le_sub_comm, div_le_iff₀ (by positivity)]
    linarith
  have := mul_le_mul_of_nonneg_left half (pow_nonneg slack_pos.le k)
  linarith

/-- Two numbers that differ by a factor of at most `k` roundings. -/
structure Within (k : ℕ) (a b : ℝ) : Prop where
  le : a ≤ b * slack ^ k
  ge : b ≤ a * slack ^ k

namespace Within

variable {a b c d : ℝ} {j k : ℕ}

theorem refl (a : ℝ) : Within 0 a a := ⟨by simp, by simp⟩

theorem trans (hab : Within j a b) (hbc : Within k b c) : Within (j + k) a c := by
  have room := pow_nonneg slack_pos.le
  constructor
  · calc a ≤ b * slack ^ j := hab.le
      _ ≤ c * slack ^ k * slack ^ j := mul_le_mul_of_nonneg_right hbc.le (room j)
      _ = c * slack ^ (j + k) := by rw [pow_add]; ring
  · calc c ≤ b * slack ^ k := hbc.ge
      _ ≤ a * slack ^ j * slack ^ k := mul_le_mul_of_nonneg_right hab.ge (room k)
      _ = a * slack ^ (j + k) := by rw [pow_add]; ring

theorem mono (h : Within j a b) (le : j ≤ k) (ha : 0 ≤ a) (hb : 0 ≤ b) : Within k a b := by
  have larger := pow_le_pow_right₀ one_le_slack le
  exact ⟨h.le.trans (mul_le_mul_of_nonneg_left larger hb),
    h.ge.trans (mul_le_mul_of_nonneg_left larger ha)⟩

theorem mul (hab : Within j a b) (hcd : Within k c d) (ha : 0 ≤ a) (hb : 0 ≤ b) (hc : 0 ≤ c)
    (hd : 0 ≤ d) : Within (j + k) (a * c) (b * d) := by
  have room := pow_nonneg slack_pos.le
  constructor
  · calc a * c ≤ b * slack ^ j * (d * slack ^ k) :=
          mul_le_mul hab.le hcd.le hc (mul_nonneg hb (room j))
      _ = b * d * slack ^ (j + k) := by rw [pow_add]; ring
  · calc b * d ≤ a * slack ^ j * (c * slack ^ k) :=
          mul_le_mul hab.ge hcd.ge hd (mul_nonneg ha (room j))
      _ = a * c * slack ^ (j + k) := by rw [pow_add]; ring

theorem inv (h : Within k a b) (ha : 0 < a) (hb : 0 < b) : Within k a⁻¹ b⁻¹ := by
  have room := pow_pos slack_pos k
  constructor
  · rw [inv_le_iff_one_le_mul₀ ha]
    calc 1 = b⁻¹ * b := (inv_mul_cancel₀ hb.ne').symm
      _ ≤ b⁻¹ * (a * slack ^ k) := mul_le_mul_of_nonneg_left h.ge (inv_nonneg.mpr hb.le)
      _ = b⁻¹ * slack ^ k * a := by ring
  · rw [inv_le_iff_one_le_mul₀ hb]
    calc 1 = a⁻¹ * a := (inv_mul_cancel₀ ha.ne').symm
      _ ≤ a⁻¹ * (b * slack ^ k) := mul_le_mul_of_nonneg_left h.le (inv_nonneg.mpr ha.le)
      _ = a⁻¹ * slack ^ k * b := by ring

theorem div (hab : Within j a b) (hcd : Within k c d) (ha : 0 ≤ a) (hb : 0 ≤ b) (hc : 0 < c)
    (hd : 0 < d) : Within (j + k) (a / c) (b / d) := by
  rw [div_eq_mul_inv, div_eq_mul_inv]
  exact hab.mul (hcd.inv hc hd) ha hb (inv_nonneg.mpr hc.le) (inv_nonneg.mpr hd.le)

theorem pos (h : Within k a b) (hb : 0 < b) : 0 < a := by
  by_contra le
  have := mul_nonpos_of_nonpos_of_nonneg (not_lt.mp le) (pow_nonneg slack_pos.le k)
  linarith [h.ge]

end Within

/-! ## One rounding -/

namespace Magnitude

variable {u v units num den j k n : ℕ} {x y : ℝ} {m m' : Magnitude}

/-- A quotient in the normal range and what it is rounded to. -/
theorem nearestUnits_mul_le (pos : 0 < den) (normal : 2 ^ (52 : ℕ) * den ≤ num) :
    nearestUnits num den * den * 2 ^ (53 : ℕ) ≤ num * (2 ^ (53 : ℕ) + 1) ∧
      num * 2 ^ (53 : ℕ) ≤ nearestUnits num den * den * (2 ^ (53 : ℕ) + 1) := by
  have large : 2 ^ (52 : ℕ) ≤ num / den := (Nat.le_div_iff_mul_le pos).mpr normal
  have room := spacing_mul_le (num / den) large
  have reached : spacing (num / den) * 2 ^ (52 : ℕ) ≤ nearestUnits num den :=
    le_nearestUnits_of_dvd (Nat.dvd_mul_right _ _) room
  have below := Nat.mul_le_mul_right den (room)
  have above := Nat.mul_le_mul_right den reached
  have floor := Nat.div_mul_le_self num den
  obtain ⟨lower, upper⟩ := nearestUnits_bounds num pos
  rw [Nat.mul_comm den] at lower upper
  rw [Nat.mul_right_comm] at below above
  omega

/-- The value of so many units. -/
noncomputable def toReal (units : ℕ) : ℝ := units / one

theorem toReal_nonneg (units : ℕ) : 0 ≤ toReal units := by
  unfold toReal
  positivity

theorem one_cast_pos : (0 : ℝ) < one := by exact_mod_cast one_pos

theorem within_nearestUnits (pos : 0 < den) (normal : 2 ^ (52 : ℕ) * den ≤ num) :
    Within 1 (nearestUnits num den) (num / den) := by
  obtain ⟨above, below⟩ := nearestUnits_mul_le pos normal
  have above : (nearestUnits num den * den * 2 ^ (53 : ℕ) : ℝ) ≤ num * (2 ^ (53 : ℕ) + 1) := by
    exact_mod_cast above
  have below : (num * 2 ^ (53 : ℕ) : ℝ) ≤ nearestUnits num den * den * (2 ^ (53 : ℕ) + 1) := by
    exact_mod_cast below
  have pos : (0 : ℝ) < den := by exact_mod_cast pos
  constructor
  · rw [pow_one, slack, div_mul_eq_mul_div, le_div_iff₀ pos]
    linarith
  · rw [pow_one, slack, div_le_iff₀ pos]
    linarith

/-- Numbers so far from either end of the range that a factor of two does not leave it. -/
structure Safe (y : ℝ) : Prop where
  lower : 2 ^ (53 : ℕ) ≤ y * one
  upper : 4 * (y * one) ≤ unitLimit

theorem Safe.pos (safe : Safe y) : 0 < y := by
  have := safe.lower
  exact pos_of_mul_pos_left (lt_of_lt_of_le (by positivity) this) one_cast_pos.le

/-- A quotient within a factor of two of such a number stays below the limit. -/
theorem Safe.nearestUnits_lt (safe : Safe y) (pos : 0 < den)
    (le : (num / den : ℝ) ≤ 2 * (y * one)) : nearestUnits num den < unitLimit := by
  obtain ⟨n, limit⟩ : ∃ n, unitLimit = 2 * 2 ^ n := by
    obtain ⟨n, l, -, range, -, limit⟩ := exists_powers_eq
    refine ⟨n + 1023, ?_⟩
    rw [limit, ← Nat.pow_succ', range]
  have upper := safe.upper
  rw [limit] at upper ⊢
  have le : (num : ℝ) ≤ (2 ^ n * den : ℕ) := by
    push_cast at upper ⊢
    rw [← div_le_iff₀ (by exact_mod_cast pos)]
    linarith
  have bound := nearestUnits_le pos (precise_two_pow n) (Nat.cast_le.mp le)
  have := Nat.two_pow_pos n
  omega

/-- A finite magnitude at most `k` roundings from a number. -/
def IsNear (m : Magnitude) (k : ℕ) (y : ℝ) : Prop :=
  ∃ u h, m = finite u h ∧ Within k (toReal u) y

theorem isNear_round (pos : 0 < den) (near : Within k (num / den / one) y) (safe : Safe y)
    (few : k ≤ 2 ^ (52 : ℕ)) : IsNear (round num den) (k + 1) y := by
  have factor := slack_pow_le_two few
  have hy := safe.pos
  have hq := near.pos hy
  have scale := one_cast_pos
  have den_pos : (0 : ℝ) < den := by exact_mod_cast pos
  -- The quotient is within a factor of two of the number.
  have below : y * one ≤ 2 * (num / den) := by
    have := near.ge.trans (mul_le_mul_of_nonneg_left factor hq.le)
    rw [div_mul_eq_mul_div, le_div_iff₀ scale] at this
    linarith
  have above : (num / den : ℝ) ≤ 2 * (y * one) := by
    have := near.le.trans (mul_le_mul_of_nonneg_left factor hy.le)
    rw [div_le_iff₀ scale] at this
    linarith
  have normal : 2 ^ (52 : ℕ) * den ≤ num := by
    have : (2 ^ (52 : ℕ) * den : ℝ) ≤ num := by
      rw [← le_div_iff₀ den_pos]
      linarith [safe.lower]
    exact_mod_cast this
  have lt := safe.nearestUnits_lt pos above
  refine ⟨_, (precise_nearestUnits num den).representable lt, round_eq_finite_iff.mpr rfl, ?_⟩
  rw [Nat.add_comm]
  refine Within.trans ?_ near
  have rounded := within_nearestUnits pos normal
  have unit := Within.refl ((one : ℕ) : ℝ)
  exact rounded.div unit (Nat.cast_nonneg _) (div_nonneg (Nat.cast_nonneg _) den_pos.le) scale scale

namespace IsNear

theorem mono (hx : IsNear m j x) (le : j ≤ k) (nonneg : 0 ≤ x) : IsNear m k x := by
  obtain ⟨u, hu, rfl, near⟩ := hx
  exact ⟨u, hu, rfl, near.mono le (toReal_nonneg u) nonneg⟩

theorem mul (hx : IsNear m j x) (hy : IsNear m' k y) (safe : Safe (x * y)) (pos : 0 < x)
    (few : j + k ≤ 2 ^ (52 : ℕ)) : IsNear (m * m') (j + k + 1) (x * y) := by
  obtain ⟨u, hu, rfl, nearX⟩ := hx
  obtain ⟨v, hv, rfl, nearY⟩ := hy
  have ypos : 0 < y := pos_of_mul_pos_right safe.pos pos.le
  rw [finite_mul_finite]
  refine isNear_round one_pos ?_ safe few
  have product : ((u * v : ℕ) : ℝ) / one / one = toReal u * toReal v := by
    unfold toReal
    push_cast
    ring
  rw [product]
  exact nearX.mul nearY (toReal_nonneg u) pos.le (toReal_nonneg v) ypos.le

theorem div (hx : IsNear m j x) (hy : IsNear m' k y) (safe : Safe (x / y)) (pos : 0 < y)
    (few : j + k ≤ 2 ^ (52 : ℕ)) : IsNear (m / m') (j + k + 1) (x / y) := by
  obtain ⟨u, hu, rfl, nearX⟩ := hx
  obtain ⟨v, hv, rfl, nearY⟩ := hy
  have xpos : 0 < x := by
    have := mul_pos safe.pos pos
    rwa [div_mul_cancel₀ _ pos.ne'] at this
  have vpos := nearY.pos pos
  have nonzero : (0 : ℝ) < v := by
    rw [toReal] at vpos
    exact (div_pos_iff_of_pos_right one_cast_pos).mp vpos
  rw [finite_div_finite]
  refine isNear_round (by exact_mod_cast nonzero) ?_ safe few
  have quotient : ((u * one : ℕ) : ℝ) / v / one = toReal u / toReal v := by
    have := one_cast_pos.ne'
    unfold toReal
    push_cast
    field_simp
  rw [quotient]
  exact nearX.div nearY (toReal_nonneg u) xpos.le vpos pos

end IsNear

/-! ## Powers of ten -/

theorem toReal_mul_one (n : ℕ) : toReal (n * one) = n := by
  rw [toReal, Nat.cast_mul, mul_div_cancel_right₀ _ one_cast_pos.ne']

theorem isNear_ofNat (small : n < 2 ^ (53 : ℕ)) : IsNear (ofNat n) 0 n := by
  have h := representable_of_lt small
  refine ⟨n * one, h, ofNat_eq h, ?_⟩
  rw [toReal_mul_one]
  exact Within.refl _

theorem safe_of_one_le (large : 1 ≤ y) (upper : 4 * (y * one) ≤ unitLimit) : Safe y := by
  have room : ((2 ^ (53 : ℕ) : ℕ) : ℝ) ≤ one := Nat.cast_le.mpr (two_pow_le_one (by decide))
  refine ⟨?_, upper⟩
  have := mul_le_mul_of_nonneg_right large one_cast_pos.le
  push_cast at room
  linarith

/-- The odd factor is multiplied on when there is one. -/
theorem isNear_oddFactor (hx : IsNear m j x) (hy : IsNear m' k y) (one_le_x : 1 ≤ x)
    (one_le_y : 1 ≤ y) (upper : 4 * (x * y ^ (n % 2) * one) ≤ unitLimit)
    (few : j + n % 2 * (k + 1) ≤ 2 ^ (52 : ℕ)) :
    IsNear (if n % 2 = 1 then m * m' else m) (j + n % 2 * (k + 1)) (x * y ^ (n % 2)) := by
  rcases Nat.mod_two_eq_zero_or_one n with even | odd
  · simpa [even] using hx
  · rw [odd, pow_one] at upper
    rw [odd, Nat.one_mul] at few
    have large : 1 ≤ x * y := one_le_mul_of_one_le_of_one_le one_le_x one_le_y
    have := hx.mul hy (safe_of_one_le large upper) (by linarith) (by omega)
    rw [if_pos odd, odd, pow_one, Nat.one_mul, ← Nat.add_assoc]
    exact this

/-- Every step rounds once and squares what the earlier steps were off by. -/
theorem isNear_powerLoop (hx : IsNear m j x) (hy : IsNear m' k y) (one_le_x : 1 ≤ x)
    (one_le_y : 1 ≤ y) (upper : 4 * (x * y ^ n * one) ≤ unitLimit)
    (few : j + n * (k + 1) ≤ 2 ^ (52 : ℕ)) :
    IsNear (powerLoop m m' n) (j + n * (k + 1)) (x * y ^ n) := by
  induction n using Nat.strongRecOn generalizing m m' j k x y with
  | ind n ih =>
    have scale := one_cast_pos
    have split := Nat.div_add_mod n 2
    have bounded {z : ℝ} (le : z ≤ x * y ^ n) : 4 * (z * one) ≤ unitLimit := by
      have := mul_le_mul_of_nonneg_right le scale.le
      linarith
    have power {i : ℕ} (le : i ≤ n) : y ^ i ≤ y ^ n := pow_le_pow_right₀ one_le_y le
    have some_power (i : ℕ) : 1 ≤ y ^ i := one_le_pow₀ one_le_y
    have fewer : n % 2 * (k + 1) ≤ n * (k + 1) := Nat.mul_le_mul_right _ (Nat.mod_le n 2)
    have first := isNear_oddFactor (n := n) hx hy one_le_x one_le_y
      (bounded (mul_le_mul_of_nonneg_left (power (Nat.mod_le n 2)) (by linarith))) (by omega)
    rw [powerLoop]
    generalize (if n % 2 = 1 then m * m' else m) = result at first ⊢
    split_ifs with stop
    · rwa [show n % 2 = n by omega] at first
    · have halves : 2 ≤ n := by omega
      have square : y * y ≤ x * y ^ n := by
        calc y * y = 1 * y ^ 2 := by ring
          _ ≤ x * y ^ n := mul_le_mul one_le_x (power halves) (by positivity) (by linarith)
      have large : 1 ≤ y * y := one_le_mul_of_one_le_of_one_le one_le_y one_le_y
      have room : 2 * (k + 1) ≤ n * (k + 1) := Nat.mul_le_mul_right _ halves
      have second := hy.mul hy (safe_of_one_le large (bounded square)) (by linarith) (by omega)
      have value : x * y ^ (n % 2) * (y * y) ^ (n / 2) = x * y ^ n := by
        rw [← pow_two, ← pow_mul, mul_assoc, ← pow_add, Nat.add_comm, split]
      have count : j + n % 2 * (k + 1) + n / 2 * (k + k + 1 + 1) = j + n * (k + 1) := by
        nth_rewrite 3 [← split]
        ring
      have rest := ih (n / 2) (by omega) first second
        (one_le_mul_of_one_le_of_one_le one_le_x (some_power _)) large
        (by rw [value]; exact upper) (by omega)
      rwa [value, count] at rest

/-- Powers of ten take one rounding for each factor at the most. -/
theorem isNear_tenPow (le : n ≤ 300) : IsNear (tenPow n) n (10 ^ n) := by
  have room : ((8 * (10 ^ n * one) : ℕ) : ℝ) ≤ unitLimit :=
    Nat.cast_le.mpr (ten_pow_bounds (by omega)).2.le
  push_cast at room
  have bound : 4 * (1 * 10 ^ n * one) ≤ (unitLimit : ℝ) := by
    have := mul_nonneg (pow_nonneg (show (0 : ℝ) ≤ 10 by norm_num) n) one_cast_pos.le
    linarith
  have unit : IsNear (ofNat 1) 0 1 := by exact_mod_cast isNear_ofNat (n := 1) (by decide)
  have ten : IsNear (ofNat 10) 0 10 := by exact_mod_cast isNear_ofNat (n := 10) (by decide)
  have loop := isNear_powerLoop (n := n) unit ten le_rfl (by norm_num) bound (by omega)
  simpa [tenPow] using loop

end Magnitude

end DecimalPattern
