import DecimalPattern.Proofs.Binary64.DecimalPlace
import DecimalPattern.Proofs.Format.Mantissa

/-! # Integer digits of a rounded mantissa

A mantissa near its range, rounded to a few significant digits, keeps its integer digits unless
the rounding carries. The logarithm of a mantissa next to a power of ten may be that of either
side, and the place is then one off, but both places give the same power of ten.
-/

namespace DecimalPattern

-- Powers of natural numbers are the built-in ones, also beside the monoids of algebra.
attribute [local instance (2000)] instPowNat

namespace Magnitude

variable {units r i j k f n : ℕ} {places : ℤ} {x : ℝ}

/-! ## Powers of ten reached by an integer at a place -/

theorem add_toNat (shift : places + i = n) : i + places.toNat = n + (-places).toNat := by
  omega

theorem ten_pow_le_integerPart_of_round (hr : Representable r)
    (eq : round (j * one * 10 ^ (-places).toNat) (10 ^ places.toNat) = finite r hr)
    (few : i ≤ 22) (shift : places + i = n) (le : 10 ^ n ≤ j) :
    10 ^ i ≤ (shortest r).integerPart := by
  rw [ten_pow_le_integerPart_iff hr few, ← round_eq_finite_iff.mp eq]
  refine le_nearestUnits (Nat.pow_pos (by decide)) (representable_ten_pow few).1 ?_
  calc 10 ^ i * one * 10 ^ places.toNat = 10 ^ n * one * 10 ^ (-places).toNat := by
        rw [Nat.mul_right_comm, ← Nat.pow_add, Nat.mul_right_comm, ← Nat.pow_add,
          add_toNat shift]
    _ ≤ j * one * 10 ^ (-places).toNat :=
        Nat.mul_le_mul_right _ (Nat.mul_le_mul_right one le)

/-- The units of a place with few digits are far apart. -/
theorem two_le_one_mul_zpow (few : places ≤ 12) : (2 : ℝ) ≤ one * 10 ^ (-places) := by
  have unit : ((2 * 10 ^ (12 : ℕ) : ℕ) : ℝ) ≤ one :=
    Nat.cast_le.mpr (Nat.le_trans (by decide) (two_pow_le_one (n := 41) (by decide)))
  have inverse : (10 : ℝ) ^ (-12 : ℤ) ≤ 10 ^ (-places) :=
    (zpow_le_zpow_iff_right₀ (by norm_num)).mpr (neg_le_neg few)
  rw [Nat.cast_mul, Nat.cast_pow, Nat.cast_ofNat, Nat.cast_ofNat] at unit
  calc (2 : ℝ) = 2 * 10 ^ (12 : ℕ) * 10 ^ (-12 : ℤ) := by norm_num
    _ ≤ one * 10 ^ (-places) := mul_le_mul unit inverse (by positivity) one_cast_pos.le

theorem integerPart_lt_of_round (hr : Representable r)
    (eq : round (j * one * 10 ^ (-places).toNat) (10 ^ places.toNat) = finite r hr)
    (few : n ≤ 12) (shift : places + i = n) (lt : j < 10 ^ n) (small : i ≤ 22) :
    (shortest r).integerPart < 10 ^ i := by
  have ten : (10 : ℝ) ≠ 0 := by norm_num
  have rounded := (abs_le.mp (abs_nearestUnits_sub_le (j * one * 10 ^ (-places).toNat)
    (Nat.pow_pos (n := places.toNat) (show 0 < 10 by decide)))).2
  have value : ((j * one * 10 ^ (-places).toNat : ℕ) : ℝ) / (10 ^ places.toNat : ℕ) =
      j * (one * 10 ^ (-places)) := by
    rw [ten_zpow_eq, neg_neg, Nat.cast_mul, Nat.cast_mul, Nat.cast_pow, Nat.cast_pow, Nat.cast_ofNat]
    generalize (one : ℝ) = one
    ring
  have reached : ((10 ^ i * one : ℕ) : ℝ) = 10 ^ n * (one * 10 ^ (-places)) := by
    rw [Nat.cast_mul, Nat.cast_pow, Nat.cast_ofNat, mul_left_comm, ← zpow_natCast,
      ← zpow_natCast, ← zpow_add₀ ten, mul_comm, ← shift, add_neg_cancel_comm]
  have step := two_le_one_mul_zpow (show places ≤ 12 by clear eq; omega)
  rw [value] at rounded
  rw [← Nat.not_le, ten_pow_le_integerPart_iff hr small, Nat.not_le,
    ← round_eq_finite_iff.mp eq, ← Nat.cast_lt (α := ℝ), reached]
  have short : (10 : ℝ) ^ n ≤ 10 ^ (12 : ℕ) := pow_le_pow_right₀ (by norm_num) few
  have below : (j : ℝ) ≤ 10 ^ n - 1 := by
    have : ((j + 1 : ℕ) : ℝ) ≤ (10 ^ n : ℕ) := Nat.cast_le.mpr lt
    rw [Nat.cast_add, Nat.cast_one, Nat.cast_pow, Nat.cast_ofNat] at this
    linarith
  generalize (nearestUnits (j * one * 10 ^ (-places).toNat) (10 ^ places.toNat) : ℝ) = u at *
  generalize (one : ℝ) * 10 ^ (-places) = grid at *
  have product := mul_le_mul_of_nonneg_right below (zero_le_two.trans step)
  have largest := mul_le_mul_of_nonneg_right short (zero_le_two.trans step)
  rw [sub_mul, one_mul] at product
  rw [div_add_div _ _ (by positivity) two_ne_zero, le_div_iff₀ (by positivity)] at rounded
  linarith

/-! ## Rounding near the range -/

/-- Around a tie of so many digits the errors of the logarithm, of the shift and of the rounding
may decide. -/
noncomputable def tieBand (digits : ℕ) : ℝ := (10 ^ digits : ℕ) / (2 ^ (38 : ℕ) : ℕ)

theorem tieBand_eq (n : ℕ) : tieBand n = 10 ^ n / 2 ^ (38 : ℕ) := by
  rw [tieBand, Nat.cast_pow, Nat.cast_pow, Nat.cast_ofNat, Nat.cast_ofNat]

theorem tieBand_nonneg (n : ℕ) : 0 ≤ tieBand n := by
  rw [tieBand_eq]
  positivity

/-- Rounding to `k + f` digits at a place at most one off, where the integer is the nearest but
for the error of a tie. -/
structure RoundsAt (k f : ℕ) (x : ℝ) (m : Magnitude) (c : ℤ) (j : ℕ) : Prop where
  place : c = k - 1 ∨ c = k ∨ c = k + 1
  le : x ≤ 10 ^ c * logSlack
  ge : (10 : ℝ) ^ (c - 1) ≤ x * logSlack
  near : |(j : ℝ) - x * 10 ^ ((k + f : ℕ) - c : ℤ)| ≤ 1 / 2 + 3 / 4 * tieBand (k + f)
  value : m = round (j * one * 10 ^ (-((k + f : ℕ) - c : ℤ)).toNat)
    (10 ^ ((k + f : ℕ) - c : ℤ).toNat)

/-- The logarithm of a value near the range of `k` digits is at most one off. -/
theorem ceilLog_near (hu : Representable units) (ne : units ≠ 0)
    (lower : (10 : ℝ) ^ (k - 1 : ℤ) ≤ 2 * toReal units) (upper : toReal units ≤ 2 * 10 ^ k) :
    ceilLog units = k - 1 ∨ ceilLog units = k ∨ ceilLog units = k + 1 := by
  obtain ⟨le, ge⟩ := ceilLog_bounds hu ne
  have ten : (10 : ℝ) ≠ 0 := by norm_num
  have slack : 2 * logSlack < 10 := by norm_num [logSlack_eq]
  have low : (10 : ℝ) ^ (k - 1 : ℤ) < 10 ^ (ceilLog units + 1) := by
    have power : (0 : ℝ) < 10 ^ ceilLog units := zpow_pos (by norm_num) _
    have := mul_lt_mul_of_pos_left slack power
    rw [zpow_add_one₀ ten]
    linarith
  have high : (10 : ℝ) ^ (ceilLog units - 1) < 10 ^ (k + 1 : ℤ) := by
    have := mul_lt_mul_of_pos_left slack (pow_pos (show (0 : ℝ) < 10 by norm_num) k)
    have := mul_le_mul_of_nonneg_right upper (show 0 ≤ logSlack by norm_num [logSlack_eq])
    rw [zpow_add_one₀ ten, zpow_natCast]
    linarith
  have low := (zpow_lt_zpow_iff_right₀ (by norm_num)).mp low
  have high := (zpow_lt_zpow_iff_right₀ (by norm_num)).mp high
  omega

theorem exists_roundsAt (hu : Representable units) (ne : units ≠ 0) (few : k + f ≤ 11)
    (lower : (10 : ℝ) ^ (k - 1 : ℤ) ≤ 2 * toReal units) (upper : toReal units ≤ 2 * 10 ^ k) :
    ∃ c j, RoundsAt k f (toReal units) ((finite units hu).roundSignificant (some (k + f))) c j := by
  obtain ⟨le, ge⟩ := ceilLog_bounds hu ne
  have place := ceilLog_near hu ne lower upper
  have moved := mul_zpow_sub_le (n := k + f) le
  have large : (10 : ℝ) ^ (k + f) ≤ 10 ^ (11 : ℕ) := pow_le_pow_right₀ (by norm_num) few
  have digits : (1 : ℝ) ≤ 10 ^ (k + f) := one_le_pow₀ (by norm_num)
  rw [logSlack_eq, mul_add, mul_one] at moved
  obtain ⟨j, -, near, value⟩ := exists_roundHalfEven_eq hu
    (show ((k + f : ℕ) - ceilLog units : ℤ).natAbs ≤ 22 by omega) (by linarith)
  refine ⟨ceilLog units, j, place, le, ge, near.trans ?_, ?_⟩
  · rw [tieBand_eq]
    linarith
  · rw [roundSignificant, leadingPlace, if_neg ne, placesOfCount_of_lt (by omega)]
    exact value

theorem ten_pow_le_of_lt (lt : (10 : ℝ) ^ n - 1 < j) : 10 ^ n ≤ j := by
  have next : ((10 ^ n : ℕ) : ℝ) < (j + 1 : ℕ) := by
    rw [Nat.cast_pow, Nat.cast_ofNat, Nat.cast_add, Nat.cast_one]
    linarith
  exact Nat.lt_succ_iff.mp (Nat.cast_lt.mp next)

theorem lt_ten_pow_of_lt (lt : (j : ℝ) < 10 ^ n) : j < 10 ^ n := by
  rw [← Nat.cast_lt (α := ℝ), Nat.cast_pow, Nat.cast_ofNat]
  exact lt

namespace RoundsAt

variable {m : Magnitude} {c : ℤ} {hr : Representable r}

theorem near_of_eq (h : RoundsAt k f x m c j) (eq : ((k + f : ℕ) - c : ℤ) = n) :
    |(j : ℝ) - x * 10 ^ n| ≤ 1 / 2 + 3 / 4 * tieBand (k + f) := by
  have near := h.near
  rwa [eq, zpow_natCast] at near

theorem le_moved (h : RoundsAt k f x m c j) :
    10 ^ (k + f) ≤ 10 * (x * 10 ^ ((k + f : ℕ) - c : ℤ) * logSlack) := by
  have ge := mul_le_mul_of_nonneg_right h.ge
    (zpow_nonneg (show (0 : ℝ) ≤ 10 by norm_num) ((k + f : ℕ) - c : ℤ))
  rw [← zpow_add₀ (by norm_num), mul_right_comm, sub_add_sub_cancel', sub_eq_add_neg,
    add_comm, zpow_add₀ (by norm_num), zpow_natCast, zpow_neg_one] at ge
  linarith

/-- Digits are kept down to a value that is rounded up to the power of ten. -/
theorem le_integerPart (h : RoundsAt (k + 1) f x (finite r hr) c j) (few : k + 1 + f ≤ 11)
    (large : 10 ^ (k + 1 + f) - 1 / 2 + 3 / 4 * tieBand (k + 1 + f) < x * 10 ^ (f + 1)) :
    10 ^ k ≤ (shortest r).integerPart := by
  have value := h.value.symm
  have power : (10 : ℝ) ^ (k + 1 + f) = 10 * 10 ^ (k + f) := by ring
  have digits : (10 : ℝ) ^ (k + f) ≤ 10 ^ (10 : ℕ) := pow_le_pow_right₀ (by norm_num) (by omega)
  have band : tieBand (k + 1 + f) = 10 * 10 ^ (k + f) / 2 ^ (38 : ℕ) := by rw [tieBand_eq, power]
  rw [band, power] at large
  rcases h.place with place | place | place
  · have shift : ((k + 1 + f : ℕ) - c : ℤ) = (f + 1 : ℕ) := by omega
    have near := (abs_le.mp (h.near_of_eq shift)).1
    refine ten_pow_le_integerPart_of_round hr value (n := k + 1 + f) (by omega) (by omega)
      (ten_pow_le_of_lt ?_)
    rw [band] at near
    linarith
  · have shift : ((k + 1 + f : ℕ) - c : ℤ) = f := by omega
    have near := (abs_le.mp (h.near_of_eq shift)).1
    refine ten_pow_le_integerPart_of_round hr value (n := k + f) (by omega) (by omega)
      (ten_pow_le_of_lt ?_)
    rw [band] at near
    rw [pow_succ (10 : ℝ) f] at large
    linarith
  · have near := (abs_le.mp h.near).1
    have moved := h.le_moved
    refine Nat.le_trans (Nat.pow_le_pow_right (by decide) k.le_succ)
      (ten_pow_le_integerPart_of_round hr value (n := k + f) (by omega) (by omega)
      (ten_pow_le_of_lt ?_))
    rw [band] at near
    rw [power, logSlack_eq] at moved
    linarith

/-- No digit is added below a value that is rounded up to the power of ten. -/
theorem integerPart_lt (h : RoundsAt k f x (finite r hr) c j) (few : k + f ≤ 11)
    (small : x * 10 ^ f < 10 ^ (k + f) - 1 / 2 - 3 / 4 * tieBand (k + f)) :
    (shortest r).integerPart < 10 ^ k := by
  have value := h.value.symm
  have least : (1 : ℝ) ≤ 10 ^ (k + f) := one_le_pow₀ (by norm_num)
  have digits : (10 : ℝ) ^ (k + f) ≤ 10 ^ (11 : ℕ) := pow_le_pow_right₀ (by norm_num) few
  rw [tieBand_eq] at small
  rcases h.place with place | place | place
  · have near := (abs_le.mp h.near).2
    have moved := mul_zpow_sub_le (n := k + f) h.le
    refine integerPart_lt_of_round hr value (n := k + f + 1) (by omega) (by omega)
      (lt_ten_pow_of_lt ?_) (by omega)
    rw [tieBand_eq] at near
    rw [logSlack_eq] at moved
    rw [pow_succ]
    linarith
  · have shift : ((k + f : ℕ) - c : ℤ) = f := by omega
    have near := (abs_le.mp (h.near_of_eq shift)).2
    refine integerPart_lt_of_round hr value (n := k + f) (by omega) (by omega)
      (lt_ten_pow_of_lt ?_) (by omega)
    rw [tieBand_eq] at near
    linarith
  · have ge := h.ge
    rw [place, add_sub_cancel_right, zpow_natCast] at ge
    have moved := mul_le_mul_of_nonneg_right ge (pow_nonneg (show (0 : ℝ) ≤ 10 by norm_num) f)
    rw [← pow_add, mul_right_comm, logSlack_eq] at moved
    linarith

end RoundsAt

/-! ## Shifted mantissas -/

theorem slack_pow_le_logSlack : slack ^ 1024 ≤ logSlack := by
  have bound := slack_pow_mul_le 1024
  have inverse : 1 ≤ logSlack * (1 - (1024 : ℕ) / 2 ^ (53 : ℕ)) := by norm_num [logSlack_eq]
  have room : (0 : ℝ) < 1 - (1024 : ℕ) / 2 ^ (53 : ℕ) := by norm_num
  exact le_of_mul_le_mul_right (bound.trans inverse) room

/-- The integer digits of a rounded mantissa by its exact value: all are there from the last tie
below the power of ten on, and there is one more only beyond the tie below the next power. -/
structure KeepsDigits (k f : ℕ) (y : ℝ) (r : ℕ) : Prop where
  le_integerPart : ∀ i, k = i + 1 →
    10 ^ (k + f) - 1 / 2 + tieBand (k + f) < y * 10 ^ (f + 1) → 10 ^ i ≤ (shortest r).integerPart
  integerPart_lt : y * 10 ^ f < 10 ^ (k + f) - 1 / 2 - tieBand (k + f) →
    (shortest r).integerPart < 10 ^ k

/-- The error of the shift is below that which the band leaves. -/
theorem RoundsAt.keepsDigits {y : ℝ} {c : ℤ} {hr : Representable r}
    (h : RoundsAt k f x (finite r hr) c j) (few : k + f ≤ 11) (near : Within 1024 x y)
    (hx : 0 ≤ x) (hy : 0 ≤ y) : KeepsDigits k f y r := by
  have least : (1 : ℝ) ≤ 10 ^ (k + f) := one_le_pow₀ (by norm_num)
  have digits : (10 : ℝ) ^ (k + f) ≤ 10 ^ (11 : ℕ) := pow_le_pow_right₀ (by norm_num) few
  have above := near.le.trans (mul_le_mul_of_nonneg_left slack_pow_le_logSlack hy)
  have below := near.ge.trans (mul_le_mul_of_nonneg_left slack_pow_le_logSlack hx)
  rw [logSlack_eq, mul_add, mul_one] at above below
  constructor
  · rintro i rfl large
    have moved := mul_le_mul_of_nonneg_right below
      (pow_nonneg (show (0 : ℝ) ≤ 10 by norm_num) (f + 1))
    refine h.le_integerPart few ?_
    rw [tieBand_eq] at large ⊢
    linarith
  · intro small
    have moved := mul_le_mul_of_nonneg_right above
      (pow_nonneg (show (0 : ℝ) ≤ 10 by norm_num) f)
    refine h.integerPart_lt few ?_
    rw [tieBand_eq] at small ⊢
    linarith

/-- A mantissa near its range, rounded to a few digits. -/
theorem exists_keepsDigits (h : Representable units) (ne : units ≠ 0) (few : k + f ≤ 11) {e : ℤ}
    (place : floorLog units - e = k - 1 ∨ floorLog units - e = k - 2)
    (lower : (10 : ℝ) ^ (k - 1 : ℤ) ≤ 3 / 2 * (toReal units * 10 ^ (-e)))
    (upper : toReal units * 10 ^ (-e) ≤ 3 / 2 * 10 ^ k) :
    ∃ r hr, ((finite units h).shift (-e)).roundSignificant (some (k + f)) = finite r hr ∧
      KeepsDigits k f (toReal units * 10 ^ (-e)) r := by
  have value : 0 < toReal units * 10 ^ (-e) :=
    mul_pos (toReal_pos ne) (zpow_pos (by norm_num) _)
  obtain ⟨u, hu, eq, near⟩ := isNear_mantissa h ne (e := e) (by omega) (by omega)
  have positive := near.pos value
  have nonzero : u ≠ 0 := by
    rintro rfl
    rw [toReal, Nat.cast_zero, zero_div] at positive
    exact lt_irrefl 0 positive
  have above := near.le.trans (mul_le_mul_of_nonneg_left slack_pow_le_logSlack value.le)
  have below := near.ge.trans (mul_le_mul_of_nonneg_left slack_pow_le_logSlack positive.le)
  rw [logSlack_eq, mul_add, mul_one] at above below
  obtain ⟨c, j, rounds⟩ := exists_roundsAt (k := k) hu nonzero few (by linarith) (by linarith)
  have finite := isFinite_roundSignificant hu
    (room_of_isNear near (mantissa_range h ne (by omega) (by omega)).2) (some (k + f))
  rw [eq]
  cases rounded : (Magnitude.finite u hu).roundSignificant (some (k + f)) with
  | infinite =>
    rw [rounded] at finite
    exact absurd finite Bool.false_ne_true
  | finite r hr =>
    rw [rounded] at rounds
    exact ⟨r, hr, rfl, rounds.keepsDigits few near positive.le value.le⟩

end Magnitude

end DecimalPattern
