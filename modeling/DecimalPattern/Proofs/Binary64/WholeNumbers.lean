import DecimalPattern.Proofs.Binary64.RoundAgain

/-! # Rounding whole numbers

Products of whole numbers are whole, also where they are rounded, and so are the powers of ten. A
whole number other than zero is therefore rounded to zero or to at least one, and so is any number
that is rounded to an integer.
-/

namespace DecimalPattern

-- Powers of natural numbers are the built-in ones, also beside the monoids of algebra.
attribute [local instance (2000)] instPowNat

namespace Magnitude

variable {f n r u : ℕ} {hu : Representable u} {hr : Representable r} {places : ℤ}
  {x y : Magnitude}

/-! ## Whole numbers -/

/-- Finite magnitudes without a fraction, and infinity. -/
def Whole (x : Magnitude) : Prop := ∀ u h, x = finite u h → one ∣ u

theorem whole_finite_iff : (finite u hu).Whole ↔ one ∣ u := by
  constructor
  · intro whole
    exact whole u hu rfl
  · rintro dvd v hv eq
    obtain rfl := finite.inj eq
    exact dvd

/-- Integers of more than 53 bits are rounded to integers. -/
theorem one_dvd_nearestUnits (n : ℕ) : one ∣ nearestUnits (n * one) 1 := by
  rcases le_total n (2 ^ (53 : ℕ)) with small | large
  · have exact := nearestUnits_of_precise Nat.one_pos (precise_mul_one small)
    rw [Nat.mul_one] at exact
    rw [exact]
    exact Nat.dvd_mul_left one n
  · apply one_dvd_of_large (precise_nearestUnits _ _)
    apply le_nearestUnits Nat.one_pos (precise_mul_one (by decide))
    rw [Nat.mul_one]
    exact Nat.mul_le_mul_right one (Nat.le_trans (by decide) large)

theorem whole_ofNat (n : ℕ) : (ofNat n).Whole := by
  intro u h eq
  rw [ofNat, ofUnits, round_eq_finite_iff] at eq
  rw [← eq]
  exact one_dvd_nearestUnits n

theorem Whole.mul (hx : x.Whole) (hy : y.Whole) : (x * y).Whole := by
  intro w hw eq
  cases x with
  | infinite => cases y <;> cases eq
  | finite u hu =>
    cases y with
    | infinite => cases eq
    | finite v hv =>
      obtain ⟨m, hm⟩ := hx u hu rfl
      obtain ⟨n, hn⟩ := hy v hv rfl
      have product : finite u hu * finite v hv = ofNat (m * n) := by
        rw [finite_mul_finite, ofNat, ofUnits]
        apply round_congr one_pos Nat.one_pos
        rw [hm, hn]
        ring
      exact whole_ofNat _ w hw (product.symm.trans eq)

theorem whole_tenPow (n : ℕ) : (tenPow n).Whole :=
  powerLoop_induction (fun _ _ hx hy => hx.mul hy) (whole_ofNat 1) (whole_ofNat 10) n

theorem whole_nearestInteger (x : Magnitude) : x.nearestInteger.Whole := by
  intro w hw eq
  cases x with
  | infinite => cases eq
  | finite u hu =>
    rw [nearestInteger_eq] at eq
    exact whole_ofNat _ w hw eq

theorem Whole.eq_zero_or_le (whole : (finite u hu).Whole) : u = 0 ∨ one ≤ u := by
  rcases Nat.eq_zero_or_pos u with zero | pos
  · exact .inl zero
  · exact .inr (Nat.le_of_dvd pos (whole_finite_iff.mp whole))

/-! ## Rounding at a place -/

/-- At a place after the point a number from one on does not get below one. -/
theorem one_le_roundHalfEven (large : one ≤ u) (positive : 0 < places)
    (eq : (finite u hu).roundHalfEven places = finite r hr) : one ≤ r := by
  rcases tenPow_cases places.natAbs with infinite | ⟨f, hf, factor, atLeast⟩
  · rw [roundHalfEven_of_infinite infinite positive.ne'] at eq
    obtain rfl := finite.inj eq
    exact large
  rw [roundHalfEven_of_factor factor, if_neg positive.ne', if_neg positive.not_gt,
    finite_mul_finite] at eq
  cases product : round (u * f) one with
  | infinite =>
    have overflow : ¬ infinite.isFinite := Bool.false_ne_true
    rw [product, if_neg overflow] at eq
    obtain rfl := finite.inj eq
    exact large
  | finite s hs =>
    -- The factor is whole, so that its multiple is not rounded to less than the factor.
    have pos : 0 < f := Nat.lt_of_lt_of_le one_pos atLeast
    have whole : one ∣ f := whole_tenPow _ f hf factor
    have le : f ≤ s := by
      rw [← round_eq_finite_iff.mp product]
      apply le_nearestUnits one_pos hf.1
      rw [Nat.mul_comm u]
      exact Nat.mul_le_mul_left f large
    have kept : f ≤ nearestWhole s * one := by
      have mono := Nat.mul_le_mul_right one (nearestWhole_mono le)
      rwa [nearestWhole_of_dvd whole] at mono
    obtain ⟨h, integer⟩ := exists_nearestInteger_whole hs
    have finite : (Magnitude.finite s hs).isFinite := rfl
    rw [product, if_pos finite, integer, finite_div_finite, round_eq_finite_iff] at eq
    rw [← eq]
    apply le_nearestUnits pos precise_one
    rw [Nat.mul_comm one]
    exact Nat.mul_le_mul_right one kept

/-- A whole number is not rounded to a fraction below one, and neither is any number that is rounded
to an integer. -/
theorem eq_zero_or_le_of_roundHalfEven (whole : places = 0 ∨ one ∣ u)
    (eq : (finite u hu).roundHalfEven places = finite r hr) : r = 0 ∨ one ≤ r := by
  by_cases zero : places = 0
  · rw [roundHalfEven, if_pos zero] at eq
    exact (eq ▸ whole_nearestInteger _).eq_zero_or_le
  have whole : (finite u hu).Whole := whole_finite_iff.mpr (whole.resolve_left zero)
  rcases lt_or_gt_of_ne zero with negative | positive
  · rcases tenPow_cases places.natAbs with infinite | ⟨f, hf, factor, -⟩
    · rw [roundHalfEven_of_infinite infinite zero] at eq
      exact (eq ▸ whole).eq_zero_or_le
    · rw [roundHalfEven_of_factor factor, if_neg zero, if_pos negative, ← factor] at eq
      exact (eq ▸ (whole_nearestInteger _).mul (whole_tenPow _)).eq_zero_or_le
  · rcases whole.eq_zero_or_le with rfl | large
    · rw [roundHalfEven_zero] at eq
      exact .inl (finite.inj eq).symm
    · exact .inr (one_le_roundHalfEven large positive eq)

end Magnitude

end DecimalPattern
