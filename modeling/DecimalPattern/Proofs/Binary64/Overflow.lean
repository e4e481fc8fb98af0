import DecimalPattern.Proofs.Binary64.HalfEven

/-! # Rounding without overflow

Rounding at a place after the point never leaves the finite range, since a product that does is not
used. Rounding before the point at most quadruples a magnitude and checks nothing.
-/

namespace DecimalPattern

-- Powers of natural numbers are the built-in ones, also beside the monoids of algebra.
attribute [local instance (2000)] instPowNat

namespace Magnitude

variable {num den n units u v : ℕ} {h : Representable units} {x y : Magnitude}

/-! ## Bounds on one operation -/

theorem precise_two_mul (precise : Precise u) : Precise (2 * u) := by
  by_cases zero : u = 0
  · rw [zero]
    exact Nat.dvd_zero _
  · rw [Precise, spacing, Nat.log2_two_mul zero]
    refine Nat.dvd_trans ?_ (Nat.mul_dvd_mul_left 2 precise)
    rw [spacing, ← Nat.pow_succ']
    exact Nat.pow_dvd_pow 2 (by omega)

theorem isFinite_round_of_le (pos : 0 < den) (precise : Precise u) (le : num ≤ u * den)
    (limit : u < unitLimit) : ∃ v h, round num den = finite v h ∧ v ≤ u := by
  have bound := nearestUnits_le pos precise le
  exact ⟨_, (precise_nearestUnits num den).representable (Nat.lt_of_le_of_lt bound limit),
    round_eq_finite_iff.mpr rfl, bound⟩

/-- Rounding at most doubles a quotient. -/
theorem nearestUnits_mul_le_two_mul (num : ℕ) (pos : 0 < den) :
    nearestUnits num den * den ≤ 2 * num := by
  obtain ⟨lower, -⟩ := roundQuotient_bounds num (Nat.mul_pos pos (spacing_pos (num / den)))
  have above := roundQuotient_le_succ num (den * spacing (num / den))
  have floor := Nat.div_mul_le_self num den
  rw [nearestUnits, Nat.mul_assoc, Nat.mul_comm (spacing _)]
  rcases Nat.eq_zero_or_pos (num / den) with zero | large
  · -- A quotient below one is rounded to zero or to one.
    have one_spacing : spacing (num / den) = 1 := spacing_eq_one (by omega)
    rw [one_spacing, Nat.mul_one] at lower above ⊢
    rw [zero] at above
    rcases Nat.le_one_iff_eq_zero_or_eq_one.mp above with eq | eq
    · rw [eq]
      omega
    · rw [eq] at lower ⊢
      omega
  · have grid : spacing (num / den) ≤ num / den := by
      refine Nat.le_trans (Nat.pow_le_pow_right Nat.two_pos (Nat.sub_le _ 52)) ?_
      exact Nat.log2_self_le large.ne'
    have room := Nat.mul_le_mul_left den grid
    rw [Nat.mul_comm den (num / den)] at room
    omega

/-- What products keep, repeated squaring keeps too. -/
theorem powerLoop_induction {P : Magnitude → Prop} (mul : ∀ x y, P x → P y → P (x * y)) (hx : P x)
    (hy : P y) (n : ℕ) : P (powerLoop x y n) := by
  induction n using Nat.strongRecOn generalizing x y with
  | ind n ih =>
    have first : P (if n % 2 = 1 then x * y else x) := by
      split_ifs
      · exact mul x y hx hy
      · exact hx
    rw [powerLoop]
    generalize (if n % 2 = 1 then x * y else x) = result at first ⊢
    split_ifs
    · exact first
    · exact ih (n / 2) (by omega) first (mul y y hy hy)

/-! ## Powers of ten are at least one -/

theorem precise_one : Precise one := by
  rw [← Nat.one_mul one]
  exact precise_mul_one (by decide)

/-- Finite magnitudes from one on, and infinity. -/
def AtLeastOne (x : Magnitude) : Prop := ∀ u h, x = finite u h → one ≤ u

theorem AtLeastOne.mul (hx : x.AtLeastOne) (hy : y.AtLeastOne) : (x * y).AtLeastOne := by
  intro w hw eq
  cases x with
  | infinite => cases y <;> cases eq
  | finite u hu =>
    cases y with
    | infinite => cases eq
    | finite v hv =>
      rw [finite_mul_finite, round_eq_finite_iff] at eq
      rw [← eq]
      exact le_nearestUnits one_pos precise_one (Nat.mul_le_mul (hx u hu rfl) (hy v hv rfl))

theorem AtLeastOne.powerLoop (hx : x.AtLeastOne) (hy : y.AtLeastOne) (n : ℕ) :
    (powerLoop x y n).AtLeastOne :=
  powerLoop_induction (fun _ _ hx hy => hx.mul hy) hx hy n

theorem atLeastOne_ofNat (pos : 0 < n) (small : n < 2 ^ (53 : ℕ)) : (ofNat n).AtLeastOne := by
  intro u h eq
  rw [ofNat_eq (representable_of_lt small)] at eq
  obtain rfl := finite.inj eq
  exact Nat.le_mul_of_pos_left one pos

theorem atLeastOne_tenPow (n : ℕ) : (tenPow n).AtLeastOne := by
  rw [tenPow]
  exact (atLeastOne_ofNat (n := 1) (by decide) (by decide)).powerLoop
    (atLeastOne_ofNat (n := 10) (by decide) (by decide)) n

/-! ## Rounding -/

/-- The bounds that a tie leaves. -/
theorem nearestWhole_bounds (units : ℕ) :
    nearestWhole units * one ≤ 2 * units ∧
      2 * (nearestWhole units * one) ≤ 2 * units + one + 2 * tieWidth ∧
      2 * units ≤ 2 * (nearestWhole units * one) + one + 2 * tieWidth := by
  have whole := Nat.div_add_mod units one
  have rest := Nat.mod_lt units one_pos
  have halves := one_eq
  have width := tieWidth_lt
  rw [Nat.mul_comm] at whole
  rw [nearestWhole]
  generalize units / one = q at *
  generalize units % one = r at *
  -- The next integer is taken from one half on, or from one and a half on in a tie.
  have next : (q + 1) * one = q * one + one := Nat.succ_mul q one
  have odd : q % 2 = 1 → one ≤ q * one := fun eq => Nat.le_mul_of_pos_left one (by omega)
  split_ifs with tie low
  · rcases Nat.mod_two_eq_zero_or_one q with eq | eq
    · rw [eq, Nat.add_zero]
      omega
    · have := odd eq
      rw [eq]
      omega
  · omega
  · omega

theorem exists_nearestInteger_eq (h : Representable units) :
    ∃ n, (finite units h).nearestInteger = ofNat n ∧ n * one ≤ 2 * units ∧
      2 * (n * one) ≤ 2 * units + one + 2 * tieWidth ∧
      2 * units ≤ 2 * (n * one) + one + 2 * tieWidth :=
  ⟨nearestWhole units, nearestInteger_eq h, nearestWhole_bounds units⟩

theorem isFinite_nearestInteger (h : Representable units) :
    ∃ v hv, (finite units h).nearestInteger = finite v hv ∧ v ≤ 2 * units := by
  by_cases whole : one ∣ units
  · exact ⟨units, h, nearestInteger_of_whole (Nat.div_mul_cancel whole).symm, by omega⟩
  · have small : units < 2 ^ (52 : ℕ) * one := by
      by_contra large
      exact whole (one_dvd_of_large h.1 (Nat.le_of_not_lt large))
    obtain ⟨n, eq, double, -⟩ := exists_nearestInteger_eq h
    have few : n < 2 ^ (53 : ℕ) := by
      by_contra large
      have := Nat.mul_le_mul_right one (Nat.le_of_not_lt large)
      omega
    exact ⟨n * one, representable_of_lt few, eq.trans (ofNat_eq _), double⟩

/-- Before the point the product that moves the integer back is below four times the magnitude. -/
theorem isFinite_round_before {f : ℕ} {hf : Representable f} (h : Representable units)
    (pos : 0 < f) (large : one ≤ f) (limit : 4 * units < unitLimit) :
    ((finite units h / finite f hf).nearestInteger * finite f hf).isFinite := by
  have quotient := nearestUnits_mul_le_two_mul (units * one) pos
  rw [finite_div_finite]
  obtain ⟨q, hq, divided, le⟩ := isFinite_round_of_le pos h.1 (Nat.mul_le_mul_left units large) h.2
  have eq := round_eq_finite_iff.mp divided
  obtain ⟨w, hw, integer, double⟩ := isFinite_nearestInteger hq
  rw [divided, integer, finite_mul_finite]
  have product : w * f ≤ 4 * units * one := by
    have := Nat.mul_le_mul_right f double
    rw [eq] at quotient
    rw [Nat.mul_assoc] at this ⊢
    omega
  have precise : Precise (4 * units) := by
    have := precise_two_mul (precise_two_mul h.1)
    rwa [← Nat.mul_assoc] at this
  obtain ⟨r, hr, eq, -⟩ := isFinite_round_of_le one_pos precise product limit
  rw [eq]
  rfl

/-- Only rounding before the point of a magnitude near the limit may overflow. -/
theorem isFinite_roundHalfEven (h : Representable units) {places : ℤ}
    (room : 0 ≤ places ∨ 4 * units < unitLimit) :
    ((finite units h).roundHalfEven places).isFinite := by
  have factor := atLeastOne_tenPow places.natAbs
  rw [roundHalfEven]
  generalize tenPow places.natAbs = power at *
  by_cases zero : places = 0
  · obtain ⟨v, hv, eq, -⟩ := isFinite_nearestInteger h
    rw [if_pos zero, eq]
    rfl
  rw [if_neg zero]
  cases power with
  | infinite =>
    rw [if_pos (by rfl)]
    rfl
  | finite f hf =>
    have large := factor f hf rfl
    have pos : 0 < f := Nat.lt_of_lt_of_le one_pos large
    rw [if_neg (by simp [isFinite])]
    split_ifs with negative product
    · exact isFinite_round_before h pos large (room.resolve_left (Int.not_le.mpr negative))
    · generalize finite units h * finite f hf = scaled at *
      cases scaled with
      | infinite => simp [isFinite] at product
      | finite s hs =>
        obtain ⟨w, hw, integer, -⟩ := isFinite_nearestInteger hs
        rw [integer, finite_div_finite]
        obtain ⟨r, hr, eq, -⟩ := isFinite_round_of_le pos hw.1 (Nat.mul_le_mul_left w large) hw.2
        rw [eq]
        rfl
    · rfl

end Magnitude

end DecimalPattern
