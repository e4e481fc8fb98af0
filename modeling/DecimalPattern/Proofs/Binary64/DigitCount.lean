import DecimalPattern.Proofs.Binary64.Shortest

/-! # The number of digits of a shortest decimal

A shortest decimal has no more digits than any other decimal that reads back, apart from the zeros
of its power of ten. There always is one of seventeen digits.
-/

namespace DecimalPattern

-- Powers of natural numbers are the built-in ones, also beside the monoids of algebra.
attribute [local instance (2000)] instPowNat

namespace Magnitude

variable {units c j n p power : ℕ} {d : Decimal}

/-- Of two decimals that read back, a power of ten between them would be coarser than both. -/
theorem IsShortest.lt_pow (h : Precise units) (short : IsShortest units d c power) (pos : 0 < n)
    (nonzero : 0 < j) (le : j ≤ 10 ^ n) (reads : Magnitude.readsBack units (j * 10 ^ p)) :
    c < 10 ^ n := by
  have coarse : p ≤ power := by
    by_contra lt
    exact short.coarsest p (Nat.lt_of_not_le lt) j nonzero reads
  by_contra large
  have lower : j * 10 ^ p ≤ 1 * 10 ^ (power + n) := by
    rw [Nat.one_mul, Nat.pow_add, Nat.mul_comm (10 ^ power)]
    exact Nat.mul_le_mul le (Nat.pow_le_pow_right (by decide) coarse)
  have upper : 1 * 10 ^ (power + n) ≤ c * 10 ^ power := by
    rw [Nat.one_mul, Nat.pow_add, Nat.mul_comm (10 ^ power)]
    exact Nat.mul_le_mul_right _ (Nat.le_of_not_lt large)
  exact short.coarsest (power + n) (by omega) 1 Nat.one_pos
    (readsBack_between h reads short.readsBack lower upper)

/-! ## Seventeen digits -/

/-- Half the interval around a magnitude, on both sides together. -/
theorem lt_spacings (units : ℕ) :
    2 * units < 10 ^ (16 : ℕ) * (spacingBelow units + spacing units) := by
  have upper := Nat.lt_log2_self (n := units)
  have bound : units < 2 ^ (53 : ℕ) * spacing units := by
    refine Nat.lt_of_lt_of_le upper ?_
    rw [spacing, ← Nat.pow_add]
    exact Nat.pow_le_pow_right Nat.two_pos (by omega)
  by_cases power : units = 2 ^ units.log2 ∧ 52 < units.log2
  · obtain ⟨eq, wide⟩ := power
    rw [spacing] at *
    generalize units.log2 = n at *
    have below : spacingBelow units = 2 ^ (n - 1 - 52) := eq ▸ spacingBelow_of_two_pow wide
    have double : 2 ^ (n - 52) = 2 * 2 ^ (n - 1 - 52) := by
      rw [← Nat.pow_succ']
      congr 1
      omega
    have value : 2 ^ n = 2 ^ (53 : ℕ) * 2 ^ (n - 1 - 52) := by
      rw [← Nat.pow_add]
      congr 1
      omega
    have := Nat.two_pow_pos (n - 1 - 52)
    omega
  · rw [not_and_or, not_lt] at power
    rw [spacingBelow_of_ne power]
    omega

theorem readsBack_of_lt {t : ℕ} (h : Precise units)
    (inside : 2 * (units * decimalUnits) < 2 * t + spacingBelow units * decimalUnits ∧
      2 * t < 2 * (units * decimalUnits) + spacing units * decimalUnits) : readsBack units t :=
  (readsBack_iff h).mpr ((nearestUnits_eq_iff h decimalUnits_pos).mpr
    ⟨inside.1.le, inside.2.le, fun _ => inside⟩)

theorem ten_pow_le_mul_decimalUnits (ne : units ≠ 0) : 10 ^ (16 : ℕ) ≤ units * decimalUnits := by
  obtain ⟨n, places, fives, -⟩ := exists_decimalUnits_eq
  refine Nat.le_trans ?_ (Nat.le_mul_of_pos_left _ (Nat.pos_of_ne_zero ne))
  rw [fives]
  exact Nat.le_trans (show 10 ^ (16 : ℕ) ≤ 5 ^ (24 : ℕ) by decide)
    (Nat.pow_le_pow_right (by decide) (by omega))

/-- The seventeen leading digits of a large number, and the number that follows them. -/
theorem exists_leading_digits (large : 10 ^ (16 : ℕ) ≤ n) :
    ∃ f p, 10 ^ (16 : ℕ) ≤ f ∧ f < 10 ^ (17 : ℕ) ∧ f * 10 ^ p ≤ n ∧ n < (f + 1) * 10 ^ p := by
  have ne : n ≠ 0 := Nat.ne_of_gt (Nat.lt_of_lt_of_le (by decide) large)
  have lower := Nat.pow_log_le_self 10 ne
  have upper := Nat.lt_pow_succ_log_self (b := 10) (by decide) n
  obtain ⟨p, eq⟩ : ∃ p, Nat.log 10 n = p + 16 :=
    ⟨_, (Nat.sub_add_cancel ((Nat.le_log_iff_pow_le (by decide) ne).mpr large)).symm⟩
  rw [eq, Nat.pow_add] at lower
  rw [eq, show (p + 16).succ = p + 17 from rfl, Nat.pow_add] at upper
  have step : 0 < 10 ^ p := Nat.pow_pos (by decide)
  refine ⟨n / 10 ^ p, p, ?_, Nat.div_lt_of_lt_mul upper, Nat.div_mul_le_self n _, ?_⟩
  · rwa [Nat.le_div_iff_mul_le step, Nat.mul_comm]
  · rw [Nat.mul_comm]
    exact Nat.lt_mul_div_succ n step

/-- One of the two decimals of seventeen digits around a magnitude reads back. -/
theorem exists_readsBack_of_seventeen (h : Representable units) (ne : units ≠ 0) :
    ∃ j p, 0 < j ∧ j ≤ 10 ^ (17 : ℕ) ∧ readsBack units (j * 10 ^ p) := by
  have room := Nat.mul_lt_mul_of_pos_right (lt_spacings units) decimalUnits_pos
  obtain ⟨f, p, below, above, floor, next⟩ :=
    exists_leading_digits (ten_pow_le_mul_decimalUnits ne)
  by_contra none
  have low := mt (readsBack_of_lt h.1 (t := f * 10 ^ p)) fun reads =>
    none ⟨f, p, by omega, by omega, reads⟩
  have high := mt (readsBack_of_lt h.1 (t := (f + 1) * 10 ^ p)) fun reads =>
    none ⟨f + 1, p, by omega, by omega, reads⟩
  have positive := Nat.mul_pos (spacing_pos units) decimalUnits_pos
  have positiveBelow := Nat.mul_pos (spacingBelow_pos units) decimalUnits_pos
  -- Both miss the interval, so that it is narrower than the step between them.
  have succ : (f + 1) * 10 ^ p = f * 10 ^ p + 10 ^ p := Nat.succ_mul f _
  have lower : 10 ^ (16 : ℕ) * 10 ^ p ≤ units * decimalUnits :=
    (Nat.mul_le_mul_right _ below).trans floor
  rw [Nat.mul_assoc, Nat.mul_assoc, Nat.add_mul] at room
  omega

end Magnitude

end DecimalPattern
