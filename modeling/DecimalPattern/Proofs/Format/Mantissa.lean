import DecimalPattern.Proofs.Binary64.Logarithm
import DecimalPattern.Proofs.Binary64.Overflow
import DecimalPattern.Proofs.Format.Digits

/-! # Mantissas

The shift by a power of ten is exact but for a factor of `1 + 2⁻⁴²`, also where it takes several
steps. The exponent comes from the logarithm, so that a mantissa has the magnitude which the layout
asks for.
-/

namespace DecimalPattern

-- Powers of natural numbers are the built-in ones, also beside the monoids of algebra.
attribute [local instance (2000)] instPowNat

namespace Magnitude

variable {units n k : ℕ} {h : Representable units} {x : Magnitude} {y g : ℝ}
  {move : ℕ → Magnitude → Magnitude}

/-! ## Shifts -/

/-- Moving by a number of places multiplies by so many powers of a base. -/
def Moves (move : ℕ → Magnitude → Magnitude) (g : ℝ) : Prop :=
  ∀ n ≤ 300, ∀ {x : Magnitude} {k : ℕ} {y : ℝ}, IsNear x k y → 0 < y → Safe (y * g ^ n) →
    k + n ≤ 2 ^ (52 : ℕ) → IsNear (move n x) (k + n + 1) (y * g ^ n)

theorem moves_mul : Moves (fun n x => x * tenPow n) 10 :=
  fun _ le _ _ _ near pos safe few => near.mul (isNear_tenPow le) safe pos few

theorem moves_div : Moves (fun n x => x / tenPow n) 10⁻¹ := by
  intro n le x k y near pos safe few
  rw [inv_pow, ← div_eq_mul_inv] at safe ⊢
  exact near.div (isNear_tenPow le) safe (by positivity) few

theorem isNear_repeat (moves : Moves move g) (near : IsNear x 0 y) (pos : 0 < y) (hg : 0 < g)
    (steps : ℕ) (few : steps ≤ 1000)
    (safe : ∀ i, 0 < i → i ≤ steps → Safe (y * g ^ (300 * i))) :
    IsNear (Nat.repeat (move 300) steps x) (steps * 301) (y * g ^ (300 * steps)) := by
  induction steps with
  | zero => simpa [Nat.repeat] using near
  | succ steps ih =>
    have earlier := ih (by omega) fun i lower upper => safe i lower (by omega)
    have last := safe (steps + 1) (by omega) le_rfl
    have value : y * g ^ (300 * (steps + 1)) = y * g ^ (300 * steps) * g ^ 300 := by
      rw [Nat.mul_succ, pow_add, ← mul_assoc]
    rw [value] at last ⊢
    rw [Nat.repeat, Nat.succ_mul]
    exact moves 300 le_rfl earlier (by positivity) last (by omega)

/-- Whole steps of 300 places and a last shorter one. -/
theorem isNear_moved (moves : Moves move g) (near : IsNear x 0 y) (pos : 0 < y) (hg : 0 < g)
    (few : n ≤ 1000) (safe : ∀ i, 0 < i → i ≤ n → (300 ∣ i ∨ i = n) → Safe (y * g ^ i)) :
    IsNear (if n % 300 = 0 then Nat.repeat (move 300) (n / 300) x
      else move (n % 300) (Nat.repeat (move 300) (n / 300) x)) 1024 (y * g ^ n) := by
  have split := Nat.div_add_mod n 300
  have whole := isNear_repeat moves near pos hg (n / 300) (by omega) fun i lower upper =>
    safe (300 * i) (by omega) (by omega) (.inl (Nat.dvd_mul_right 300 i))
  have positive : 0 < y * g ^ n := by positivity
  split_ifs with exact
  · rw [show 300 * (n / 300) = n by omega] at whole
    exact whole.mono (by omega) positive.le
  · have value : y * g ^ (300 * (n / 300)) * g ^ (n % 300) = y * g ^ n := by
      rw [mul_assoc, ← pow_add, split]
    have last := safe n (by omega) le_rfl (.inr rfl)
    have rest := moves (n % 300) (by omega) whole (by positivity) (value ▸ last) (by omega)
    rw [value] at rest
    exact rest.mono (by omega) positive.le

theorem isNear_self (h : Representable units) : IsNear (finite units h) 0 (toReal units) :=
  ⟨units, h, rfl, Within.refl _⟩

theorem one_le_mul_one (ne : units ≠ 0) : 1 ≤ toReal units * one := by
  rw [toReal, div_mul_cancel₀ _ one_cast_pos.ne']
  exact_mod_cast Nat.pos_of_ne_zero ne

theorem mul_one_lt (h : Representable units) : toReal units * one ≤ unitLimit := by
  rw [toReal, div_mul_cancel₀ _ one_cast_pos.ne']
  exact Nat.cast_le.mpr h.2.le

/-- A product by many places cannot be too small. -/
theorem safe_mul (ne : units ≠ 0) {i : ℕ} (le : i ≤ n) (large : 300 ∣ i) (pos : 0 < i)
    (safe : Safe (toReal units * 10 ^ n)) : Safe (toReal units * 10 ^ i) := by
  have value := one_le_mul_one ne
  have power : (10 : ℝ) ^ i ≤ 10 ^ n := pow_le_pow_right₀ (by norm_num) le
  have sixty : (10 : ℝ) ^ (60 : ℕ) ≤ 10 ^ i :=
    pow_le_pow_right₀ (by norm_num) (by have := Nat.le_of_dvd pos large; omega)
  constructor
  · have := mul_le_mul value sixty (by positivity) (by positivity)
    have room : (2 : ℝ) ^ (53 : ℕ) ≤ 10 ^ (60 : ℕ) := by norm_num
    linarith
  · have upper := safe.upper
    have := mul_le_mul_of_nonneg_left power (mul_nonneg (toReal_nonneg units) one_cast_pos.le)
    linarith

/-- A quotient by some places cannot be too large. -/
theorem safe_div (h : Representable units) {i : ℕ} (le : i ≤ n) (pos : 0 < i)
    (safe : Safe (toReal units * 10⁻¹ ^ n)) : Safe (toReal units * 10⁻¹ ^ i) := by
  have value := mul_one_lt h
  have power : (10⁻¹ : ℝ) ^ n ≤ 10⁻¹ ^ i := pow_le_pow_of_le_one (by norm_num) (by norm_num) le
  have tenth : (10⁻¹ : ℝ) ^ i ≤ 10⁻¹ := pow_le_of_le_one (by norm_num) (by norm_num) pos.ne'
  have nonneg := mul_nonneg (toReal_nonneg units) one_cast_pos.le
  constructor
  · have lower := safe.lower
    have := mul_le_mul_of_nonneg_left power nonneg
    linarith
  · have := mul_le_mul_of_nonneg_left tenth nonneg
    have limit : (0 : ℝ) ≤ unitLimit := Nat.cast_nonneg _
    linarith

theorem isNear_shift (h : Representable units) (ne : units ≠ 0) {power : ℤ}
    (few : power.natAbs ≤ 1000) (safe : Safe (toReal units * 10 ^ power)) :
    IsNear ((finite units h).shift power) 1024 (toReal units * 10 ^ power) := by
  have self := isNear_self h
  have pos := toReal_pos ne
  rw [shift]
  rcases lt_or_ge power 0 with negative | nonneg
  · have value : (10 : ℝ) ^ power = 10⁻¹ ^ power.natAbs := by
      rw [← zpow_natCast, inv_zpow', Int.natCast_natAbs, abs_of_neg negative, neg_neg]
    rw [value] at safe ⊢
    simp only [if_pos negative]
    exact isNear_moved moves_div self pos (by norm_num) few fun i lower upper _ =>
      safe_div h upper lower safe
  · have value : (10 : ℝ) ^ power = 10 ^ power.natAbs := by
      rw [← zpow_natCast, Int.natCast_natAbs, abs_of_nonneg nonneg]
    rw [value] at safe ⊢
    simp only [if_neg nonneg.not_gt]
    refine isNear_moved moves_mul self pos (by norm_num) few fun i lower upper kind => ?_
    rcases kind with whole | rfl
    · exact safe_mul ne upper whole lower safe
    · exact safe

/-- Zero stays zero under any shift. -/
theorem shift_zero (h : Representable 0) (power : ℤ) :
    (finite 0 h).shift power = finite 0 h := by
  have step (n : ℕ) (le : n ≤ 300) :
      finite 0 h / tenPow n = finite 0 h ∧ finite 0 h * tenPow n = finite 0 h := by
    obtain ⟨f, hf, eq, -⟩ := isNear_tenPow le
    rw [eq, finite_div_finite, finite_mul_finite, round_eq_finite_iff, round_eq_finite_iff,
      Nat.zero_mul, Nat.zero_mul]
    exact ⟨nearestUnits_zero f, nearestUnits_zero one⟩
  have move (n : ℕ) (le : n ≤ 300) : (if power < 0 then finite 0 h / tenPow n
      else finite 0 h * tenPow n) = finite 0 h := by
    obtain ⟨divided, multiplied⟩ := step n le
    split_ifs
    · exact divided
    · exact multiplied
  have whole (steps : ℕ) : Nat.repeat (fun y => if power < 0 then y / tenPow 300
      else y * tenPow 300) steps (finite 0 h) = finite 0 h := by
    induction steps with
    | zero => rfl
    | succ steps ih => rw [Nat.repeat, ih, move 300 le_rfl]
  rw [shift]
  dsimp only
  rw [whole, move _ (Nat.le_of_lt_succ (Nat.lt_of_lt_of_le (Nat.mod_lt _ (by decide)) (by decide)))]
  exact ite_self _

/-! ## Exponents -/

theorem safe_of_between {y : ℝ} (lower : (10 : ℝ) ^ (-304 : ℤ) ≤ y)
    (upper : y ≤ (10 : ℝ) ^ (304 : ℤ)) : Safe y := by
  obtain ⟨top, eq⟩ : ∃ top, top = 304 := ⟨_, rfl⟩
  obtain ⟨small, large⟩ := ten_pow_bounds (n := top) (by omega)
  have small : ((2 ^ (53 : ℕ) * 10 ^ top : ℕ) : ℝ) ≤ one := Nat.cast_le.mpr small
  have large : ((8 * (10 ^ top * one) : ℕ) : ℝ) ≤ unitLimit := Nat.cast_le.mpr large.le
  have power : (10 : ℝ) ^ (304 : ℤ) = 10 ^ top := by rw [eq, ← zpow_natCast]; rfl
  have inverse : (10 : ℝ) ^ (-304 : ℤ) = (10 ^ top)⁻¹ := by rw [zpow_neg, power]
  rw [power] at upper
  rw [inverse] at lower
  push_cast at small large
  have unit := one_cast_pos
  constructor
  · have := mul_le_mul_of_nonneg_right lower unit.le
    refine le_trans ?_ this
    rw [inv_mul_eq_div, le_div_iff₀ (by positivity)]
    linarith
  · have := mul_le_mul_of_nonneg_right upper unit.le
    linarith

theorem logSlack_le : logSlack ≤ 10 := by norm_num [logSlack_eq]

/-- The exponents of the smallest and of the largest magnitude. -/
theorem floorLog_range (h : Representable units) (ne : units ≠ 0) :
    -360 ≤ floorLog units ∧ floorLog units ≤ 360 := by
  obtain ⟨above, below⟩ := floorLog_bounds h ne
  obtain ⟨top, eq⟩ : ∃ top, top = 358 := ⟨_, rfl⟩
  obtain ⟨small, large⟩ := le_ten_pow eq.ge
  have small : (one : ℝ) ≤ (10 ^ top : ℕ) := Nat.cast_le.mpr small
  have large : (unitLimit : ℝ) ≤ (10 ^ top * one : ℕ) := Nat.cast_le.mpr large
  have lower := one_le_mul_one ne
  have upper := mul_one_lt h
  have unit := one_cast_pos
  push_cast at small large
  have nonneg : (0 : ℝ) ≤ unitLimit := Nat.cast_nonneg _
  generalize floorLog units = l at *
  generalize toReal units = v at *
  generalize (one : ℝ) = one at *
  generalize (unitLimit : ℝ) = limit at *
  have slack := logSlack_le
  have ten : (10 : ℝ) ≠ 0 := by norm_num
  constructor
  · have reached : (10 : ℝ) ^ (0 : ℤ) ≤ 10 ^ (l + 2 + top) :=
      calc (10 : ℝ) ^ (0 : ℤ) ≤ v * one := by simpa using lower
        _ ≤ 10 ^ (l + 1) * logSlack * one := mul_le_mul_of_nonneg_right below unit.le
        _ ≤ 10 ^ (l + 1) * 10 * 10 ^ top := by gcongr
        _ = 10 ^ (l + 2 + top) := by
          rw [← zpow_natCast, ← zpow_add_one₀ ten, ← zpow_add₀ ten, add_assoc l]
          rfl
    have := (zpow_le_zpow_iff_right₀ (by norm_num)).mp reached
    omega
  · have reached : (10 : ℝ) ^ l * one ≤ 10 ^ (top + 1 : ℤ) * one :=
      calc (10 : ℝ) ^ l * one ≤ v * logSlack * one := mul_le_mul_of_nonneg_right above unit.le
        _ = v * one * logSlack := mul_right_comm _ _ _
        _ ≤ limit * 10 := mul_le_mul upper slack (by norm_num [logSlack_eq]) nonneg
        _ ≤ 10 ^ top * one * 10 := mul_le_mul_of_nonneg_right large (by norm_num)
        _ = 10 ^ (top + 1 : ℤ) * one := by
          rw [zpow_add_one₀ ten, zpow_natCast, mul_right_comm]
    have := (zpow_le_zpow_iff_right₀ (by norm_num)).mp (le_of_mul_le_mul_right reached unit)
    omega

/-- The powers of ten around a mantissa. -/
theorem mantissa_bounds (h : Representable units) (ne : units ≠ 0) (e : ℤ) :
    (10 : ℝ) ^ (floorLog units - e) ≤ toReal units * 10 ^ (-e) * logSlack ∧
      toReal units * 10 ^ (-e) ≤ 10 ^ (floorLog units - e + 1) * logSlack := by
  obtain ⟨above, below⟩ := floorLog_bounds h ne
  have shift : (0 : ℝ) ≤ 10 ^ (-e) := zpow_nonneg (by norm_num) _
  have split (i : ℤ) : (10 : ℝ) ^ (i - e) = 10 ^ i * 10 ^ (-e) := by
    rw [← zpow_add₀ (by norm_num), Int.sub_eq_add_neg]
  constructor
  · have := mul_le_mul_of_nonneg_right above shift
    rw [split]
    linarith
  · have := mul_le_mul_of_nonneg_right below shift
    rw [sub_add_eq_add_sub, split]
    linarith

theorem mantissa_range (h : Representable units) (ne : units ≠ 0) {e : ℤ}
    (lower : -301 ≤ floorLog units - e) (upper : floorLog units - e ≤ 301) :
    (10 : ℝ) ^ (-304 : ℤ) ≤ toReal units * 10 ^ (-e) ∧
      toReal units * 10 ^ (-e) ≤ (10 : ℝ) ^ (304 : ℤ) := by
  obtain ⟨above, below⟩ := mantissa_bounds h ne e
  have slack := logSlack_le
  have ten : (10 : ℝ) ≠ 0 := by norm_num
  have nonneg : 0 ≤ toReal units * 10 ^ (-e) :=
    mul_nonneg (toReal_nonneg units) (zpow_nonneg (by norm_num) _)
  constructor
  · have low : (10 : ℝ) ^ (-303 : ℤ) ≤ 10 ^ (floorLog units - e) :=
      (zpow_le_zpow_iff_right₀ (by norm_num)).mpr (by omega)
    have step : (10 : ℝ) ^ (-303 : ℤ) = 10 ^ (-304 : ℤ) * 10 := by
      rw [← zpow_add_one₀ ten]
      rfl
    have := mul_le_mul_of_nonneg_left slack nonneg
    linarith
  · have high : (10 : ℝ) ^ (floorLog units - e + 1) ≤ 10 ^ (303 : ℤ) :=
      (zpow_le_zpow_iff_right₀ (by norm_num)).mpr (by omega)
    calc toReal units * 10 ^ (-e) ≤ 10 ^ (floorLog units - e + 1) * logSlack := below
      _ ≤ 10 ^ (303 : ℤ) * 10 := mul_le_mul high slack (by norm_num [logSlack_eq]) (by positivity)
      _ = 10 ^ (304 : ℤ) := by
        rw [← zpow_add_one₀ ten]
        rfl

theorem isNear_mantissa (h : Representable units) (ne : units ≠ 0) {e : ℤ}
    (lower : -301 ≤ floorLog units - e) (upper : floorLog units - e ≤ 301) :
    IsNear ((finite units h).shift (-e)) 1024 (toReal units * 10 ^ (-e)) := by
  obtain ⟨least, greatest⟩ := floorLog_range h ne
  obtain ⟨low, high⟩ := mantissa_range h ne lower upper
  exact isNear_shift h ne (by omega) (safe_of_between low high)

/-! ## Finite mantissas -/

theorem isFinite_roundSignificant (h : Representable units) (room : 4 * units < unitLimit)
    (most : Option ℕ) : ((finite units h).roundSignificant most).isFinite := by
  cases most with
  | none => rfl
  | some most =>
    rw [roundSignificant]
    exact isFinite_roundHalfEven h (.inr room)

theorem room_of_isNear {u : ℕ} (near : Within 1024 (toReal u) y)
    (le : y ≤ (10 : ℝ) ^ (304 : ℤ)) : 4 * u < unitLimit := by
  obtain ⟨top, eq⟩ : ∃ top, top = 304 := ⟨_, rfl⟩
  have room := (ten_pow_bounds (n := top) (by omega)).2
  have bound : toReal u ≤ 2 * 10 ^ (304 : ℤ) :=
    calc toReal u ≤ y * slack ^ 1024 := near.le
      _ ≤ 10 ^ (304 : ℤ) * 2 := mul_le_mul le (slack_pow_le_two (by decide))
        (pow_nonneg slack_pos.le _) (by positivity)
      _ = 2 * 10 ^ (304 : ℤ) := mul_comm _ _
  rw [toReal, div_le_iff₀ one_cast_pos, show (10 : ℝ) ^ (304 : ℤ) = 10 ^ top by
    rw [eq, ← zpow_natCast]; rfl] at bound
  have whole : u ≤ 2 * 10 ^ top * one := by exact_mod_cast bound
  rw [Nat.mul_assoc] at whole
  omega

theorem isFinite_mantissa (h : Representable units) {e : ℤ}
    (lower : -301 ≤ (finite units h).leadingExponent - e)
    (upper : (finite units h).leadingExponent - e ≤ 301) (most : Option ℕ) :
    (((finite units h).shift (-e)).roundSignificant most).isFinite := by
  rw [leadingExponent] at lower upper
  by_cases zero : units = 0
  · subst zero
    rw [shift_zero]
    exact isFinite_roundSignificant h h.2 most
  · rw [if_neg zero] at lower upper
    obtain ⟨u, hu, eq, near⟩ := isNear_mantissa h zero lower upper
    rw [eq]
    exact isFinite_roundSignificant hu
      (room_of_isNear near (mantissa_range h zero lower upper).2) most

end Magnitude

end DecimalPattern
