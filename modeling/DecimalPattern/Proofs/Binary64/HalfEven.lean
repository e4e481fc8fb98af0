import DecimalPattern.Proofs.Binary64.Shortest

/-! # Rounding at a decimal place

Where the power of ten is exact a decimal with so few digits that its product is off by less than
a quarter comes back from rounding unchanged.
-/

namespace DecimalPattern

-- Powers of natural numbers are the built-in ones, also beside the monoids of algebra.
attribute [local instance (2000)] instPowNat

namespace Magnitude

variable {m n num den u v units places : ℕ} {h : Representable units}

/-! ## Operations on units -/

theorem round_eq_finite_iff : round num den = finite units h ↔ nearestUnits num den = units := by
  unfold round
  split_ifs with lt
  · exact ⟨fun eq => (finite.inj eq), fun eq => by simp [eq]⟩
  · refine ⟨fun eq => ?_, fun eq => absurd (eq ▸ h.2) lt⟩
    cases eq

theorem finite_mul_finite (hu : Representable u) (hv : Representable v) :
    finite u hu * finite v hv = round (u * v) one := by
  change mul _ _ = _
  rw [mul]

theorem finite_div_finite (hu : Representable u) (hv : Representable v) :
    finite u hu / finite v hv = round (u * one) v := by
  change div _ _ = _
  rw [div]

theorem round_congr {a b c d : ℕ} (hb : 0 < b) (hd : 0 < d) (eq : a * d = c * b) :
    round a b = round c d := by
  simp only [round, nearestUnits_congr hb hd eq]

theorem ofNat_eq (h : Representable (n * one)) : ofNat n = finite (n * one) h := by
  rw [ofNat, ofUnits, round_eq_finite_iff]
  simpa using nearestUnits_of_precise Nat.one_pos h.1

theorem ofNat_ten_pow_mul {i j : ℕ} (le : i + j ≤ 22) :
    ofNat (10 ^ i) * ofNat (10 ^ j) = ofNat (10 ^ (i + j)) := by
  rw [ofNat_eq (representable_ten_pow (Nat.le_trans (Nat.le_add_right i j) le)),
    ofNat_eq (representable_ten_pow (Nat.le_trans (Nat.le_add_left j i) le)), finite_mul_finite,
    ofNat, ofUnits]
  apply round_congr one_pos Nat.one_pos
  rw [Nat.mul_one, Nat.pow_add, Nat.mul_mul_mul_comm, Nat.mul_assoc (_ * _)]

/-- Squares and products of exact powers of ten are exact. -/
theorem powerLoop_ten_pow {i j : ℕ} (le : i + j * n ≤ 22) :
    powerLoop (ofNat (10 ^ i)) (ofNat (10 ^ j)) n = ofNat (10 ^ (i + j * n)) := by
  induction n using Nat.strongRecOn generalizing i j with
  | ind n ih =>
    have halves := Nat.div_add_mod n 2
    have split : j * n = (j + j) * (n / 2) + j * (n % 2) := by
      rw [← Nat.two_mul, Nat.mul_comm 2, Nat.mul_assoc, ← Nat.mul_add, halves]
    have first : (if n % 2 = 1 then ofNat (10 ^ i) * ofNat (10 ^ j) else ofNat (10 ^ i)) =
        ofNat (10 ^ (i + j * (n % 2))) := by
      rcases Nat.mod_two_eq_zero_or_one n with even | odd
      · rw [even, if_neg (by decide), Nat.mul_zero, Nat.add_zero]
      · rw [odd, Nat.mul_one] at split
        rw [odd, if_pos rfl, Nat.mul_one, ofNat_ten_pow_mul (by omega)]
    rw [powerLoop, first]
    split_ifs with stop
    · rw [split, stop, Nat.mul_zero, Nat.zero_add]
    · have square : j + j ≤ (j + j) * (n / 2) :=
        Nat.le_mul_of_pos_right _ (Nat.pos_of_ne_zero stop)
      rw [ofNat_ten_pow_mul (by omega), ih (n / 2) (by omega) (by omega), split, Nat.add_assoc,
        Nat.add_comm (j * _)]

/-- The exact powers of ten. -/
theorem exists_tenPow_eq (le : n ≤ 22) : ∃ h, tenPow n = finite (10 ^ n * one) h := by
  have h := representable_ten_pow le
  have exact : tenPow n = ofNat (10 ^ n) := by
    have loop := powerLoop_ten_pow (i := 0) (j := 1) (n := n) (by omega)
    rwa [Nat.zero_add, Nat.one_mul] at loop
  exact ⟨h, exact.trans (ofNat_eq h)⟩

theorem finite_mul_tenPow (h : Representable units) (le : n ≤ 22) :
    finite units h * tenPow n = round (units * 10 ^ n) 1 := by
  obtain ⟨_, eq⟩ := exists_tenPow_eq le
  rw [eq, finite_mul_finite]
  apply round_congr one_pos Nat.one_pos
  rw [Nat.mul_one, Nat.mul_assoc]

theorem finite_div_tenPow (h : Representable units) (le : n ≤ 22) :
    finite units h / tenPow n = round units (10 ^ n) := by
  have pos : 0 < 10 ^ n := Nat.pow_pos (by decide)
  obtain ⟨_, eq⟩ := exists_tenPow_eq le
  rw [eq, finite_div_finite]
  apply round_congr (Nat.mul_pos pos one_pos) pos
  rw [Nat.mul_assoc, Nat.mul_comm one]

/-! ## Integers -/

/-- A half in units, and the width of a tie beside it. -/
theorem half_bounds : one = 2 * half ∧ (2 * tieWidth + 1) * 2 ^ (38 : ℕ) ≤ one := by
  decide +kernel

theorem one_eq : one = 2 * half := half_bounds.1

theorem tieWidth_lt : 8 * tieWidth < half := by
  have := half_bounds
  omega

/-- The integer that some units are rounded to. -/
def nearestWhole (units : ℕ) : ℕ :=
  if half < units % one + tieWidth ∧ units % one < half + tieWidth then
    units / one + units / one % 2
  else if units % one < half then units / one
  else units / one + 1

theorem nearestInteger_eq (h : Representable units) :
    (finite units h).nearestInteger = ofNat (nearestWhole units) := by
  rw [nearestInteger, nearestWhole]
  split_ifs <;> rfl

/-- A quarter off an integer there is no tie. -/
theorem nearestWhole_of_near (upper : 4 * units ≤ 4 * (n * one) + one)
    (lower : 4 * (n * one) ≤ 4 * units + one) : nearestWhole units = n := by
  have whole := Nat.div_add_mod units one
  have rest := Nat.mod_lt units one_pos
  have width := tieWidth_lt
  have halves := one_eq
  rw [Nat.mul_comm] at whole
  rw [nearestWhole]
  generalize units / one = q at *
  generalize units % one = r at *
  have le : q ≤ n := by
    by_contra gt
    have far := Nat.mul_le_mul_right one (Nat.lt_of_not_ge gt)
    rw [Nat.succ_mul] at far
    omega
  have ge : n ≤ q + 1 := by
    by_contra lt
    have far := Nat.mul_le_mul_right one (Nat.lt_of_not_ge lt)
    rw [Nat.succ_mul, Nat.succ_mul] at far
    omega
  obtain rfl | rfl : n = q ∨ n = q + 1 := by omega
  · rw [if_neg (by omega), if_pos (by omega)]
  · rw [Nat.succ_mul q] at upper lower
    rw [if_neg (by omega), if_neg (by omega)]

theorem nearestInteger_of_near (upper : 4 * units ≤ 4 * (n * one) + one)
    (lower : 4 * (n * one) ≤ 4 * units + one) : (finite units h).nearestInteger = ofNat n := by
  rw [nearestInteger_eq, nearestWhole_of_near upper lower]

theorem spacingBelow_le_spacing (units : ℕ) : spacingBelow units ≤ spacing units :=
  Nat.le_of_dvd (spacing_pos units) (spacingBelow_dvd units)

/-- A magnitude nearest to a decimal with few digits is near it. -/
theorem near_of_nearestUnits (h : Representable units) (few : places ≤ 22)
    (small : n < 2 ^ (51 : ℕ)) (nearest : nearestUnits (n * one) (10 ^ places) = units) :
    4 * (units * 10 ^ places) ≤ 4 * (n * one) + one ∧
      4 * (n * one) ≤ 4 * (units * 10 ^ places) + one := by
  have pos : 0 < 10 ^ places := Nat.pow_pos (by decide)
  obtain ⟨lower, upper, -⟩ := (nearestUnits_eq_iff h.1 pos).mp nearest
  have below := Nat.mul_le_mul_right (10 ^ places) (spacingBelow_le_spacing units)
  have le : n * one ≤ (2 ^ (51 : ℕ) - 1) * one := Nat.mul_le_mul_right one (by omega)
  -- Twice the spacing, multiplied, is at most one.
  have step : 2 * (spacing units * 10 ^ places) ≤ one := by
    rcases Nat.lt_or_ge units (2 ^ (52 : ℕ)) with tiny | large
    · rw [spacing_eq_one (by omega), Nat.one_mul]
      calc 2 * 10 ^ places ≤ 2 * 10 ^ (22 : ℕ) :=
            Nat.mul_le_mul_left 2 (Nat.pow_le_pow_right (by decide) few)
        _ ≤ one := Nat.le_trans (by decide) (two_pow_le_one (n := 80) (by decide))
    · have := Nat.mul_le_mul_right (10 ^ places) (spacing_mul_le units large)
      rw [Nat.mul_right_comm] at this
      omega
  omega

theorem nearestInteger_of_whole (eq : units = n * one) :
    (finite units h).nearestInteger = finite units h := by
  rw [nearestInteger_of_near (n := n) (by omega) (by omega), ofNat, ofUnits, round_eq_finite_iff,
    ← eq]
  simpa using nearestUnits_of_precise Nat.one_pos h.1

theorem exists_one_eq_four_mul : ∃ k, one = 4 * 2 ^ k ∧ 2 ^ (53 : ℕ) * 2 ^ k < unitLimit := by
  obtain ⟨k, l, bits, range, unit, limit⟩ := exists_powers_eq
  refine ⟨k - 2, ?_, ?_⟩
  · rw [unit, show 4 = 2 ^ (2 : ℕ) from rfl, ← Nat.pow_add, Nat.add_sub_cancel' (by omega)]
  · rw [limit, ← Nat.pow_add]
    exact Nat.pow_lt_pow_right (by decide) (by omega)

/-- A product within a quarter of a small integer stays there when it is rounded. -/
theorem exists_ofUnits_near (small : n < 2 ^ (51 : ℕ)) (upper : 4 * u ≤ 4 * (n * one) + one)
    (lower : 4 * (n * one) ≤ 4 * u + one) :
    ∃ v h, ofUnits u = finite v h ∧ 4 * v ≤ 4 * (n * one) + one ∧ 4 * (n * one) ≤ 4 * v + one := by
  obtain ⟨k, quarter, limit⟩ := exists_one_eq_four_mul
  have whole : n * one = 4 * n * 2 ^ k := by rw [quarter, ← Nat.mul_assoc, Nat.mul_comm n]
  have above : nearestUnits u 1 ≤ (4 * n + 1) * 2 ^ k := by
    refine nearestUnits_le Nat.one_pos (precise_of_le (by omega)) ?_
    rw [Nat.succ_mul]
    omega
  have below : (4 * n - 1) * 2 ^ k ≤ nearestUnits u 1 := by
    refine le_nearestUnits Nat.one_pos (precise_of_le (by omega)) ?_
    rw [Nat.sub_mul]
    omega
  have limit : nearestUnits u 1 < unitLimit := by
    refine Nat.lt_of_le_of_lt (Nat.le_trans above ?_) limit
    exact Nat.mul_le_mul_right _ (by omega)
  refine ⟨nearestUnits u 1, (precise_nearestUnits u 1).representable limit, ?_, ?_, ?_⟩
  · rw [ofUnits, round_eq_finite_iff]
  · rw [Nat.succ_mul] at above
    omega
  · rw [Nat.sub_mul] at below
    omega

/-- The detour through the product with an exact power of ten. -/
theorem roundHalfEven_of_product {hv : Representable v} (few : places ≤ 22) (ne : places ≠ 0)
    (product : finite units h * tenPow places = finite v hv)
    (integer : (finite v hv).nearestInteger = ofNat n) (small : n < 2 ^ (53 : ℕ))
    (nearest : nearestUnits (n * one) (10 ^ places) = units) :
    (finite units h).roundHalfEven places = finite units h := by
  have whole := representable_of_lt small
  obtain ⟨hten, ten⟩ := exists_tenPow_eq few
  have back : ofNat n / tenPow places = finite units h := by
    rw [ofNat_eq whole, finite_div_tenPow whole few, round_eq_finite_iff]
    exact nearest
  rw [roundHalfEven, Int.natAbs_natCast, if_neg (by omega), if_neg (by simp [ten, isFinite]),
    if_neg (by omega), product, if_pos (by rfl), integer, back]

/-- A decimal with few digits after scaling comes back unchanged. -/
theorem roundHalfEven_of_few (few : places ≤ 22) (small : n < 2 ^ (51 : ℕ))
    (nearest : nearestUnits (n * one) (10 ^ places) = units) :
    (finite units h).roundHalfEven places = finite units h := by
  by_cases zero : places = 0
  · have eq : units = n * one := by
      rw [← nearest, zero, Nat.pow_zero]
      simpa using nearestUnits_of_precise Nat.one_pos (precise_mul_one (n := n) (by omega))
    rw [roundHalfEven, if_pos (by omega), nearestInteger_of_whole eq]
  · obtain ⟨upper, lower⟩ := near_of_nearestUnits h few small nearest
    obtain ⟨v, hv, product, upper, lower⟩ := exists_ofUnits_near small upper lower
    exact roundHalfEven_of_product few zero ((finite_mul_tenPow h few).trans product)
      (nearestInteger_of_near upper lower) (by omega) nearest

/-- A whole number comes back unchanged where its product is exact. -/
theorem roundHalfEven_of_whole (few : places ≤ 22) (small : n * 10 ^ places < 2 ^ (53 : ℕ))
    (eq : units = n * one) : (finite units h).roundHalfEven places = finite units h := by
  by_cases zero : places = 0
  · rw [roundHalfEven, if_pos (by omega), nearestInteger_of_whole eq]
  · have whole := representable_of_lt small
    have scaled : units * 10 ^ places = n * 10 ^ places * one := by rw [eq, Nat.mul_right_comm]
    have product : finite units h * tenPow places = finite (n * 10 ^ places * one) whole := by
      rw [finite_mul_tenPow h few, scaled]
      exact ofNat_eq whole
    refine roundHalfEven_of_product few zero product ?_ small ?_
    · rw [nearestInteger_of_whole rfl, ofNat_eq whole]
    · rw [← scaled]
      exact nearestUnits_of_precise (Nat.pow_pos (by decide)) h.1

end Magnitude

/-- The scale of one leaves a finite number alone. -/
theorem Binary64.scale_one {units : ℕ} (negative : Bool) (h : Representable units) :
    (signed negative (.finite units h)).scale 1 = .signed negative (.finite units h) := by
  rw [scale, Nat.mul_one, Magnitude.ofUnits, Magnitude.round_eq_finite_iff.mpr]
  simpa using Magnitude.nearestUnits_of_precise Nat.one_pos h.1

end DecimalPattern
