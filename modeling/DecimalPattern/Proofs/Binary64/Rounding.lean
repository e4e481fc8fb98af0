import DecimalPattern.Binary64.HalfEven
import Mathlib.Algebra.Order.Ring.Nat
import Mathlib.Data.Nat.Log

/-! # Rounding to 53 bits

Rounding looks at the value of a quotient only. It keeps the order, leaves alone what has at most
53 significant bits, and a number is the result exactly on the interval between the midpoints to
its neighbours.
-/

namespace DecimalPattern

-- Powers of natural numbers are the built-in ones, also beside the monoids of algebra.
attribute [local instance (2000)] instPowNat

variable {a b c d num den m n units : ℕ}

/-! ## Whole numbers -/

/-- The whole number nearest to a quotient, of two the even one. -/
theorem roundQuotient_eq_iff (pos : 0 < den) :
    roundQuotient num den = m ↔ 2 * (m * den) ≤ 2 * num + den ∧ 2 * num ≤ 2 * (m * den) + den ∧
      (m % 2 = 1 → 2 * (m * den) < 2 * num + den ∧ 2 * num < 2 * (m * den) + den) := by
  have whole := Nat.div_add_mod num den
  have rest := Nat.mod_lt num pos
  have lower := div_le_roundQuotient num den
  have upper := roundQuotient_le_succ num den
  rw [Nat.mul_comm] at whole
  have next : (num / den + 1) * den = num / den * den + den := Nat.succ_mul _ den
  -- Beside the two multiples around the quotient there are those further off.
  rcases Nat.lt_or_ge m (num / den) with below | above
  · have far := Nat.mul_le_mul_right den below
    rw [Nat.succ_mul] at far
    omega
  rcases Nat.lt_or_ge (num / den + 1) m with above | below
  · have far := Nat.mul_le_mul_right den above
    rw [Nat.succ_mul, next] at far
    omega
  unfold roundQuotient
  dsimp only
  generalize num / den = q at *
  obtain rfl | rfl : m = q ∨ m = q + 1 := by omega
  · split_ifs <;> omega
  · rw [next]
    split_ifs <;> omega

theorem roundQuotient_bounds (num : ℕ) (pos : 0 < den) :
    2 * (roundQuotient num den * den) ≤ 2 * num + den ∧
      2 * num ≤ 2 * (roundQuotient num den * den) + den :=
  have nearest := (roundQuotient_eq_iff (m := roundQuotient num den) pos).mp rfl
  ⟨nearest.1, nearest.2.1⟩

theorem roundQuotient_scale (num den : ℕ) (pos : 0 < c) :
    roundQuotient (num * c) (den * c) = roundQuotient num den := by
  simp only [roundQuotient, Nat.mul_div_mul_right _ _ pos, Nat.mul_mod_mul_right, ← Nat.mul_assoc,
    Nat.mul_lt_mul_right pos]

theorem roundQuotient_mul (m : ℕ) (pos : 0 < den) : roundQuotient (m * den) den = m := by
  rw [roundQuotient_eq_iff pos]
  omega

/-- Over one denominator the order is kept. -/
theorem roundQuotient_mono (pos : 0 < den) (le : a ≤ b) :
    roundQuotient a den ≤ roundQuotient b den := by
  obtain ⟨lower, upper, odd⟩ := (roundQuotient_eq_iff (m := roundQuotient a den) pos).mp rfl
  obtain ⟨lower', upper', odd'⟩ := (roundQuotient_eq_iff (m := roundQuotient b den) pos).mp rfl
  generalize roundQuotient a den = m at *
  generalize roundQuotient b den = n at *
  have next : (n + 1) * den = n * den + den := Nat.succ_mul n den
  by_contra lt
  obtain rfl | above : m = n + 1 ∨ n + 2 ≤ m := by omega
  · omega
  · have far := Nat.mul_le_mul_right den above
    rw [Nat.add_mul] at far
    omega

namespace Magnitude

/-- At most 53 significant bits. -/
def Precise (units : ℕ) : Prop := spacing units ∣ units

theorem spacing_pos (units : ℕ) : 0 < spacing units := Nat.two_pow_pos _

theorem precise_nearestUnits (num den : ℕ) : Precise (nearestUnits num den) :=
  spacing_dvd_nearestUnits num den

theorem nearestUnits_zero (den : ℕ) : nearestUnits 0 den = 0 := by
  simp [nearestUnits, roundQuotient]

/-- A quotient is rounded by at most half a spacing. -/
theorem nearestUnits_bounds (num : ℕ) (pos : 0 < den) :
    2 * (nearestUnits num den * den) ≤ 2 * num + den * spacing (num / den) ∧
      2 * num ≤ 2 * (nearestUnits num den * den) + den * spacing (num / den) := by
  have shape : nearestUnits num den * den =
      roundQuotient num (den * spacing (num / den)) * (den * spacing (num / den)) := by
    rw [nearestUnits, Nat.mul_comm den, Nat.mul_assoc]
  rw [shape]
  exact roundQuotient_bounds num (Nat.mul_pos pos (spacing_pos _))

theorem precise_of_le {k : ℕ} (h : m ≤ 2 ^ (53 : ℕ)) : Precise (m * 2 ^ k) := by
  by_cases zero : m = 0
  · simp [zero, Precise]
  rcases Nat.lt_or_eq_of_le h with lt | rfl
  · have ne : m * 2 ^ k ≠ 0 := Nat.mul_ne_zero zero (Nat.two_pow_pos k).ne'
    have below : (m * 2 ^ k).log2 < 53 + k := by
      rw [Nat.log2_lt ne, Nat.pow_add]
      exact Nat.mul_lt_mul_of_pos_right lt (Nat.two_pow_pos k)
    exact Nat.dvd_trans (Nat.pow_dvd_pow 2 (by omega)) (Nat.dvd_mul_left _ m)
  · rw [← Nat.pow_add, Precise, spacing, Nat.log2_two_pow]
    exact Nat.pow_dvd_pow 2 (by omega)

/-! ## Rounding keeps the order -/

theorem nearestUnits_scale (num den : ℕ) (pos : 0 < c) :
    nearestUnits (num * c) (den * c) = nearestUnits num den := by
  simp only [nearestUnits, Nat.mul_div_mul_right _ _ pos, Nat.mul_right_comm den c,
    roundQuotient_scale _ _ pos]

theorem nearestUnits_of_precise (pos : 0 < den) (h : Precise units) :
    nearestUnits (units * den) den = units := by
  obtain ⟨m, eq⟩ := h
  have floor : units * den / den = units := Nat.mul_div_cancel _ pos
  have multiple : units * den = m * (den * spacing units) := by
    calc units * den = spacing units * m * den := by rw [← eq]
      _ = m * (den * spacing units) := by rw [Nat.mul_comm _ m, Nat.mul_assoc, Nat.mul_comm den]
  rw [nearestUnits, floor, multiple, roundQuotient_mul _ (Nat.mul_pos pos (spacing_pos _)),
    Nat.mul_comm]
  exact eq.symm

/-- A multiple of the spacing that is not above a quotient is not above what it is rounded to. -/
theorem le_nearestUnits_of_dvd (dvd : spacing (num / den) ∣ m) (le : m ≤ num / den) :
    m ≤ nearestUnits num den := by
  obtain ⟨k, rfl⟩ := dvd
  rw [nearestUnits, Nat.mul_comm]
  apply Nat.mul_le_mul_right
  refine Nat.le_trans ?_ (div_le_roundQuotient _ _)
  rw [← Nat.div_div_eq_div_mul, Nat.le_div_iff_mul_le (spacing_pos _), Nat.mul_comm]
  exact le

theorem nearestUnits_le_of_dvd (dvd : spacing (num / den) ∣ m) (lt : num / den < m) :
    nearestUnits num den ≤ m := by
  obtain ⟨k, rfl⟩ := dvd
  rw [nearestUnits, Nat.mul_comm _ k]
  apply Nat.mul_le_mul_right
  refine Nat.le_trans (roundQuotient_le_succ _ _) ?_
  rw [← Nat.div_div_eq_div_mul]
  exact Nat.div_lt_of_lt_mul lt

theorem nearestUnits_mono_left (pos : 0 < den) (le : a ≤ b) :
    nearestUnits a den ≤ nearestUnits b den := by
  have floors : a / den ≤ b / den := Nat.div_le_div_right le
  by_cases same : spacing (a / den) = spacing (b / den)
  · rw [nearestUnits, nearestUnits, same]
    exact Nat.mul_le_mul_right _ (roundQuotient_mono (Nat.mul_pos pos (spacing_pos _)) le)
  · -- The two quotients have a power of two between them.
    have ne : b / den ≠ 0 := by
      intro zero
      rw [zero, Nat.le_zero] at floors
      exact same (by rw [zero, floors])
    have logs : (a / den).log2 < (b / den).log2 := by
      refine lt_of_le_of_ne ?_ fun eq => same (by rw [spacing, eq, spacing])
      rw [Nat.log2_eq_log_two, Nat.log2_eq_log_two]
      exact Nat.log_mono_right floors
    calc nearestUnits a den ≤ 2 ^ ((a / den).log2 + 1) :=
          nearestUnits_le_of_dvd (Nat.pow_dvd_pow 2 (by omega)) Nat.lt_log2_self
      _ ≤ 2 ^ (b / den).log2 := Nat.pow_le_pow_right (by decide) logs
      _ ≤ nearestUnits b den :=
          le_nearestUnits_of_dvd (Nat.pow_dvd_pow 2 (by omega)) (Nat.log2_self_le ne)

theorem nearestUnits_mono (hb : 0 < b) (hd : 0 < d) (le : a * d ≤ c * b) :
    nearestUnits a b ≤ nearestUnits c d := by
  rw [← nearestUnits_scale a b hd, ← nearestUnits_scale c d hb, Nat.mul_comm d b]
  exact nearestUnits_mono_left (Nat.mul_pos hb hd) le

theorem nearestUnits_congr (hb : 0 < b) (hd : 0 < d) (eq : a * d = c * b) :
    nearestUnits a b = nearestUnits c d :=
  Nat.le_antisymm (nearestUnits_mono hb hd eq.le) (nearestUnits_mono hd hb eq.ge)

theorem le_nearestUnits (pos : 0 < den) (h : Precise units) (le : units * den ≤ num) :
    units ≤ nearestUnits num den := by
  rw [← nearestUnits_of_precise pos h]
  exact nearestUnits_mono_left pos le

theorem nearestUnits_le (pos : 0 < den) (h : Precise units) (le : num ≤ units * den) :
    nearestUnits num den ≤ units := by
  rw [← nearestUnits_of_precise pos h]
  exact nearestUnits_mono_left pos le

/-! ## Spacings and whole numbers -/

theorem spacing_eq_one (small : units < 2 ^ (53 : ℕ)) : spacing units = 1 := by
  by_cases zero : units = 0
  · rw [zero]
    decide
  · have := (Nat.log2_lt zero).mpr small
    rw [spacing, Nat.sub_eq_zero_of_le (by omega), Nat.pow_zero]

theorem spacing_mul_le (units : ℕ) (large : 2 ^ (52 : ℕ) ≤ units) :
    spacing units * 2 ^ (52 : ℕ) ≤ units := by
  have ne : units ≠ 0 := by
    rintro rfl
    exact absurd large (by decide)
  have log := (Nat.le_log2 ne).mpr large
  rw [spacing, ← Nat.pow_add, Nat.sub_add_cancel log]
  exact Nat.log2_self_le ne

/-! ## One and the limit -/

-- The exponents are kept apart, so that arithmetic does not evaluate the powers.
theorem exists_powers_eq :
    ∃ n l, n = 1074 ∧ l = n + 1024 ∧ one = 2 ^ n ∧ unitLimit = 2 ^ l :=
  ⟨1074, 2098, rfl, rfl, by decide +kernel⟩

theorem one_pos : 0 < one := by
  obtain ⟨k, -, -, -, eq, -⟩ := exists_powers_eq
  rw [eq]
  exact Nat.two_pow_pos k

theorem two_pow_le_one (le : n ≤ 1074) : 2 ^ n ≤ one := by
  obtain ⟨k, -, bits, -, eq, -⟩ := exists_powers_eq
  rw [eq]
  exact Nat.pow_le_pow_right Nat.two_pos (bits ▸ le)

theorem two_pow_mul_one_lt (lt : n < 1024) : 2 ^ n * one < unitLimit := by
  obtain ⟨k, l, -, range, unit, limit⟩ := exists_powers_eq
  rw [unit, limit, ← Nat.pow_add]
  exact Nat.pow_lt_pow_right (by decide) (by omega)

/-- Three digits fit into ten bits. -/
theorem ten_pow_le_two_pow (n : ℕ) : 10 ^ (3 * n) ≤ 2 ^ (10 * n) := by
  rw [Nat.pow_mul, Nat.pow_mul]
  exact Nat.pow_le_pow_left (by decide) n

/-- A digit takes more than three bits. -/
theorem two_pow_le_ten_pow (n : ℕ) : 2 ^ (3 * n) ≤ 10 ^ n := by
  rw [Nat.pow_mul]
  exact Nat.pow_le_pow_left (by decide) n

/-- A few powers of two are left between the largest power of ten of 306 zeros and the limit. -/
theorem ten_pow_bounds (le : n ≤ 306) :
    2 ^ (53 : ℕ) * 10 ^ n ≤ one ∧ 8 * (10 ^ n * one) < unitLimit := by
  obtain ⟨k, digits, bits⟩ : ∃ k, n ≤ 3 * k ∧ 10 * k + 3 < 1024 := ⟨102, le, by decide⟩
  have power : 10 ^ n ≤ 2 ^ (10 * k) :=
    Nat.le_trans (Nat.pow_le_pow_right (by decide) digits) (ten_pow_le_two_pow k)
  constructor
  · have room := two_pow_le_one (n := 53 + 10 * k) (by omega)
    rw [Nat.pow_add] at room
    exact Nat.le_trans (Nat.mul_le_mul_left _ power) room
  · have room := two_pow_mul_one_lt bits
    have product := Nat.mul_le_mul_right one power
    rw [Nat.pow_add, Nat.mul_right_comm] at room
    omega

theorem le_ten_pow (le : 358 ≤ n) : one ≤ 10 ^ n ∧ unitLimit ≤ 10 ^ n * one := by
  obtain ⟨k, l, bits, range, unit, limit⟩ := exists_powers_eq
  have digits : 2 ^ k ≤ 10 ^ n := by
    refine Nat.le_trans ?_ (two_pow_le_ten_pow n)
    exact Nat.pow_le_pow_right (by decide) (by omega)
  constructor
  · rw [unit]
    exact digits
  · refine Nat.le_trans ?_ (Nat.mul_le_mul_right one digits)
    rw [unit, limit, ← Nat.pow_add]
    exact Nat.pow_le_pow_right (by decide) (by omega)

theorem Precise.representable (h : Precise units) (lt : units < unitLimit) :
    Representable units := ⟨h, lt⟩

theorem precise_mul_one (le : n ≤ 2 ^ (53 : ℕ)) : Precise (n * one) := by
  obtain ⟨k, -, -, -, eq, -⟩ := exists_powers_eq
  rw [eq]
  exact precise_of_le le

theorem representable_of_lt (small : n < 2 ^ (53 : ℕ)) : Representable (n * one) := by
  refine (precise_mul_one small.le).representable ?_
  calc n * one < 2 ^ (53 : ℕ) * one := Nat.mul_lt_mul_of_pos_right small one_pos
    _ < unitLimit := two_pow_mul_one_lt (by decide)

theorem representable_ten_pow (le : n ≤ 22) : Representable (10 ^ n * one) := by
  obtain ⟨k, -, -, -, unit, -⟩ := exists_powers_eq
  have split : 10 ^ n * one = 5 ^ n * 2 ^ (n + k) := by
    rw [unit, Nat.pow_add, ← Nat.mul_assoc, ← Nat.mul_pow]
  have small : 5 ^ n ≤ 5 ^ (22 : ℕ) := Nat.pow_le_pow_right (by decide) le
  have precise : Precise (10 ^ n * one) := by
    rw [split]
    exact precise_of_le (Nat.le_trans small (by decide))
  refine precise.representable ?_
  calc 10 ^ n * one ≤ 10 ^ (22 : ℕ) * one :=
        Nat.mul_le_mul_right one (Nat.pow_le_pow_right (by decide) le)
    _ ≤ 2 ^ (80 : ℕ) * one := Nat.mul_le_mul_right one (by decide)
    _ < unitLimit := two_pow_mul_one_lt (by decide)

/-- Large magnitudes are whole. -/
theorem one_dvd_of_large (h : Precise units) (large : 2 ^ (52 : ℕ) * one ≤ units) : one ∣ units := by
  refine Nat.dvd_trans ?_ h
  obtain ⟨k, -, -, -, eq, -⟩ := exists_powers_eq
  have ne : units ≠ 0 := Nat.ne_of_gt (Nat.lt_of_lt_of_le (Nat.mul_pos (by decide) one_pos) large)
  rw [eq, ← Nat.pow_add, ← Nat.le_log2 ne] at large
  rw [eq, spacing]
  exact Nat.pow_dvd_pow 2 (by omega)

end Magnitude

end DecimalPattern
