import DecimalPattern.Proofs.Binary64.Calls
import Mathlib.Algebra.Order.Field.Rat
import Mathlib.Algebra.Order.Ring.Abs
import Mathlib.Algebra.Ring.Int.Parity
import Mathlib.Tactic.Linarith

/-! # The nearest integer

Rounding at the units against the exact value of a number: the integer is the nearest one except
within `10⁻¹²` of the half between two integers, where it is the even one of them.
-/

namespace DecimalPattern

-- Powers of natural numbers are the built-in ones, also beside the monoids of algebra.
attribute [local instance (2000)] instPowNat

variable {a : Bool} {u : ℕ} {q : ℚ} {k m : ℤ} {v : Binary64}

/-- The integers that a number may be rounded to. -/
structure NearestEven (q : ℚ) (m : ℤ) : Prop where
  near : |m - q| ≤ 1 / 2 + 1 / 10 ^ 12
  even : ∀ k : ℤ, q = k + 1 / 2 → Even m
  nearest : (∀ k : ℤ, 1 / 10 ^ 12 < |q - (k + 1 / 2)|) → ∀ k : ℤ, k ≠ m → |m - q| < |k - q|
  nonneg : 0 ≤ q → 0 ≤ m
  nonpos : q ≤ 0 → m ≤ 0

/-- Rounding treats opposite numbers alike. -/
theorem NearestEven.neg (h : NearestEven q m) : NearestEven (-q) (-m) where
  near := by
    rw [Int.cast_neg, neg_sub_neg, abs_sub_comm]
    exact h.near
  even k half := by
    refine (h.even (-k - 1) ?_).neg
    push_cast
    linarith
  nearest far k ne := by
    rw [Int.cast_neg, neg_sub_neg, abs_sub_comm]
    have opposite : |(k : ℚ) - -q| = |((-k : ℤ) : ℚ) - q| := by
      rw [Int.cast_neg, ← neg_sub_neg, neg_neg, abs_sub_comm]
    rw [opposite]
    refine h.nearest (fun j => ?_) (-k) fun eq => ne (neg_eq_iff_eq_neg.mp eq)
    have mirrored := far (-j - 1)
    rw [← abs_neg] at mirrored
    convert mirrored using 2
    push_cast
    ring
  nonneg le := neg_nonneg.mpr (h.nonpos (neg_nonneg.mp le))
  nonpos le := neg_nonpos.mpr (h.nonneg (neg_nonpos.mp le))

namespace Magnitude

/-- The width of a tie is rounded down. -/
theorem tieWidth_mul_lt : tieWidth * 1000000000000 < one := by decide +kernel

/-- Off a tie the integer is less than one half away. -/
theorem nearestWhole_of_clear (clear : tieWidth ≤ Nat.dist (u % one) half) :
    2 * Nat.dist (nearestWhole u * one) u < one := by
  have whole := Nat.div_add_mod u one
  have rest := Nat.mod_lt u one_pos
  have halves := one_eq
  have positive := tieWidth_pos
  rw [Nat.mul_comm] at whole
  unfold Nat.dist at *
  have next : (u / one + 1) * one = u / one * one + one := Nat.succ_mul _ _
  rw [nearestWhole]
  split_ifs <;> omega

/-! ## Exact values -/

theorem cast_dist (m n : ℕ) : ((Nat.dist m n : ℕ) : ℚ) = |(m : ℚ) - n| := by
  rcases Nat.le_total m n with le | le
  · rw [Nat.dist_eq_sub_of_le le, Nat.cast_sub le, abs_sub_comm,
      abs_of_nonneg (sub_nonneg.mpr (Nat.cast_le.mpr le))]
  · rw [Nat.dist_eq_sub_of_le_right le, Nat.cast_sub le,
      abs_of_nonneg (sub_nonneg.mpr (Nat.cast_le.mpr le))]

theorem cast_one_pos : (0 : ℚ) < one := Nat.cast_pos.mpr one_pos

theorem abs_sub_units (n u : ℕ) : |(n : ℚ) - u / one| * one = (Nat.dist (n * one) u : ℕ) := by
  have pos := cast_one_pos
  rw [cast_dist, Nat.cast_mul, ← abs_of_pos pos, ← abs_mul, abs_of_pos pos, sub_mul,
    div_mul_cancel₀ _ pos.ne']

/-- The distance from the half above the floor. -/
theorem abs_sub_half (u : ℕ) :
    |(u : ℚ) / one - ((u / one : ℕ) + 1 / 2)| * one = (Nat.dist (u % one) half : ℕ) := by
  have pos := cast_one_pos
  have whole : (one : ℚ) * (u / one : ℕ) + (u % one : ℕ) = u := by
    exact_mod_cast Nat.div_add_mod u one
  have halves : (one : ℚ) = 2 * half := by exact_mod_cast one_eq
  have difference : ((u : ℚ) / one - ((u / one : ℕ) + 1 / 2)) * one = (u % one : ℕ) - half := by
    rw [sub_mul, div_mul_cancel₀ _ pos.ne']
    linarith
  rw [cast_dist, ← difference, abs_mul, abs_of_pos pos]

theorem cast_tieWidth_le : (tieWidth : ℚ) * 1000000000000 ≤ one := by
  exact_mod_cast tieWidth_mul_lt.le

theorem nearestWhole_near (u : ℕ) :
    |(nearestWhole u : ℚ) - u / one| ≤ 1 / 2 + 1 / 10 ^ 12 := by
  obtain ⟨-, above, below⟩ := nearestWhole_bounds u
  have bound : 2 * Nat.dist (nearestWhole u * one) u ≤ one + 2 * tieWidth := by
    rw [Nat.dist]
    omega
  have bound : 2 * (|(nearestWhole u : ℚ) - u / one| * one) ≤ one + 2 * tieWidth := by
    rw [abs_sub_units]
    exact_mod_cast bound
  refine le_of_mul_le_mul_right ?_ cast_one_pos
  linarith [cast_tieWidth_le]

/-- Exactly half-way there is a tie, which no odd integer comes from. -/
theorem even_nearestWhole (half : (u : ℚ) / one = k + 1 / 2) : Even ((nearestWhole u : ℕ) : ℤ) := by
  have halves := one_eq
  have units : (u : ℤ) = (2 * k + 1) * Magnitude.half := by
    have cast : (one : ℚ) = 2 * Magnitude.half := by exact_mod_cast halves
    rw [div_eq_iff cast_one_pos.ne', cast] at half
    have : (u : ℚ) = (2 * k + 1) * Magnitude.half := by linarith
    exact_mod_cast this
  have dvd : Magnitude.half ∣ u :=
    Int.natCast_dvd_natCast.mp ⟨2 * k + 1, units.trans (mul_comm _ _)⟩
  by_contra odd
  have odd : nearestWhole u % 2 = 1 := by
    rw [Int.not_even_iff] at odd
    omega
  have whole := eq_of_nearestWhole_odd dvd odd
  have cancelled : ((nearestWhole u : ℕ) : ℤ) * 2 = 2 * k + 1 := by
    have pos : (Magnitude.half : ℤ) ≠ 0 := by
      have := tieWidth_lt
      omega
    refine mul_right_cancel₀ pos ?_
    calc ((nearestWhole u : ℕ) : ℤ) * 2 * Magnitude.half = (nearestWhole u * one : ℕ) := by
          rw [halves, Nat.cast_mul, Nat.cast_mul, mul_assoc]
          rfl
      _ = (2 * k + 1) * Magnitude.half := by rw [whole, units]
  omega

/-- Off the halves every other integer is more than one half away. -/
theorem nearestWhole_nearest (clear : tieWidth ≤ Nat.dist (u % one) half)
    (ne : k ≠ nearestWhole u) : |(nearestWhole u : ℚ) - u / one| < |k - (u : ℚ) / one| := by
  have close : 2 * (|(nearestWhole u : ℚ) - u / one| * one) < one := by
    rw [abs_sub_units]
    exact_mod_cast nearestWhole_of_clear clear
  have apart : (1 : ℚ) ≤ |k - (nearestWhole u : ℚ)| := by
    exact_mod_cast Int.one_le_abs (sub_ne_zero.mpr ne)
  have triangle := abs_sub_le (k : ℚ) (u / one) (nearestWhole u)
  rw [abs_sub_comm ((u : ℚ) / one)] at triangle
  have half := lt_of_mul_lt_mul_right (a := (one : ℚ)) (b := 2 * |(nearestWhole u : ℚ) - u / one|)
    (c := 1) (by linarith) cast_one_pos.le
  linarith

theorem nearestEven_nearestWhole (u : ℕ) :
    NearestEven ((u : ℚ) / one) (nearestWhole u : ℕ) where
  near := nearestWhole_near u
  even k half := even_nearestWhole half
  nearest far k ne := by
    refine nearestWhole_nearest ?_ ne
    have far := mul_lt_mul_of_pos_right (far (u / one : ℕ)) cast_one_pos
    rw [Int.cast_natCast, abs_sub_half] at far
    have wide : (tieWidth : ℚ) ≤ (Nat.dist (u % one) half : ℕ) := by linarith [cast_tieWidth_le]
    exact_mod_cast wide
  nonneg _ := Int.natCast_nonneg _
  nonpos le := by
    have zero : u = 0 := by
      by_contra ne
      have := div_pos (Nat.cast_pos.mpr (Nat.pos_of_ne_zero ne)) cast_one_pos
      linarith
    have whole : nearestWhole u * one = u := nearestWhole_of_dvd (zero ▸ Nat.dvd_zero one)
    rw [(Nat.mul_eq_zero.mp (whole.trans zero)).resolve_right one_pos.ne', Nat.cast_zero]

end Magnitude

namespace Binary64

/-- The exact value of a finite number. -/
def toRat? : Binary64 → Option ℚ
  | signed negative (.finite units _) => some (signedUnits negative units / Magnitude.one)
  | _ => none

def signBit : Binary64 → Bool
  | nan => false
  | signed negative _ => negative

theorem signedUnits_mul (a : Bool) (n f : ℕ) :
    ((signedUnits a (n * f) : ℤ) : ℚ) = (signedUnits a n : ℤ) * f := by
  cases a with
  | false =>
    rw [signedUnits_false, signedUnits_false, Int.cast_natCast, Int.cast_natCast, Nat.cast_mul]
  | true =>
    rw [signedUnits_true, signedUnits_true, Int.cast_neg, Int.cast_neg, Int.cast_natCast,
      Int.cast_natCast, Nat.cast_mul, neg_mul]

theorem one_dvd_of_eq_integer (eq : (signedUnits a u : ℤ) / (Magnitude.one : ℚ) = k) :
    Magnitude.one ∣ u := by
  rw [div_eq_iff Magnitude.cast_one_pos.ne'] at eq
  have multiple : signedUnits a u = k * (Magnitude.one : ℤ) := by exact_mod_cast eq
  have size : (signedUnits a u).natAbs = u := by
    cases a with
    | false => exact Int.natAbs_natCast u
    | true => exact (Int.natAbs_neg u).trans (Int.natAbs_natCast u)
  rw [← size, ← Int.natCast_dvd, multiple]
  exact dvd_mul_left _ k

theorem nearestEven_signedUnits (a : Bool) (u : ℕ) :
    NearestEven ((signedUnits a u : ℤ) / Magnitude.one)
      (signedUnits a (Magnitude.nearestWhole u)) := by
  have nearest := Magnitude.nearestEven_nearestWhole u
  cases a with
  | false =>
    rw [signedUnits_false, signedUnits_false, Int.cast_natCast]
    exact nearest
  | true =>
    rw [signedUnits_true, signedUnits_true, Int.cast_neg, Int.cast_natCast, neg_div]
    exact nearest.neg

/-- Finite numbers are rounded to the nearest integer by the rule for ties; integers stay as they
are. -/
theorem nearestEven_roundHalfEven? (value : v.toRat? = some q) :
    ∃ (r : Binary64) (m : ℤ), v.roundHalfEven? 0 = some r ∧ roundIn? 3 v 0 = some r ∧
      r.toRat? = some (m : ℚ) ∧ NearestEven q m ∧ (∀ k : ℤ, q = k → r = v) ∧
      r.signBit = v.signBit := by
  cases v with
  | nan => contradiction
  | signed a x =>
    cases x with
    | infinite => contradiction
    | finite u h =>
      obtain rfl := Option.some.inj value
      obtain ⟨hr, integer⟩ := Magnitude.exists_nearestInteger_whole h
      have rounded : (signed a (.finite u h)).roundHalfEven (0 : Int32).toInt =
          signed a (.finite (Magnitude.nearestWhole u * Magnitude.one) hr) := by
        rw [roundHalfEven, Magnitude.roundHalfEven, Int32.toInt_zero, if_pos rfl, integer]
      have zero : (0 : Int32) ≠ Int32.minValue := by decide
      have once := roundHalfEven?_eq_some (signed a (.finite u h)) zero
      have steps := roundIn?_eq 0 zero (signed a (.finite u h))
      rw [rounded] at once steps
      refine ⟨signed a (.finite _ hr), signedUnits a (Magnitude.nearestWhole u), once, steps, ?_,
        nearestEven_signedUnits a u, fun k whole => ?_, by rw [signBit, signBit]⟩
      · rw [toRat?, signedUnits_mul, mul_div_cancel_right₀ _ Magnitude.cast_one_pos.ne']
      · have dvd := one_dvd_of_eq_integer whole
        rw [← rounded, roundHalfEven, Magnitude.roundHalfEven, Int32.toInt_zero, if_pos rfl,
          Magnitude.nearestInteger_of_whole (Nat.div_mul_cancel dvd).symm]

/-- Half-way between an odd integer and the even one above it, the last number with a fraction. -/
theorem nearestEven_roundHalfEven?_of_half :
    ∃ (hv : Representable ((2 ^ (53 : ℕ) - 1) * 2 ^ (1073 : ℕ)))
      (hr : Representable (2 ^ (1126 : ℕ))),
      let v := signed true (.finite _ hv)
      v.toRat? = some (-9007199254740991 / 2) ∧
        v.roundHalfEven? 0 = some (signed true (.finite _ hr)) ∧
        ∃ (r : Binary64) (m : ℤ), v.roundHalfEven? 0 = some r ∧ roundIn? 3 v 0 = some r ∧
          r.toRat? = some (m : ℚ) ∧ NearestEven (-9007199254740991 / 2) m ∧
          (∀ k : ℤ, (-9007199254740991 / 2 : ℚ) = k → r = v) ∧ r.signBit = v.signBit := by
  have hv : Representable ((2 ^ (53 : ℕ) - 1) * 2 ^ (1073 : ℕ)) := by decide +kernel
  have hr : Representable (2 ^ (1126 : ℕ)) := by decide +kernel
  have value : ∀ hv : Representable ((2 ^ (53 : ℕ) - 1) * 2 ^ (1073 : ℕ)),
      (signed true (.finite _ hv)).toRat? = some (-9007199254740991 / 2) := by decide +kernel
  have rounded : ∀ (hv : Representable ((2 ^ (53 : ℕ) - 1) * 2 ^ (1073 : ℕ)))
      (hr : Representable (2 ^ (1126 : ℕ))),
      (signed true (.finite _ hv)).roundHalfEven? 0 = some (signed true (.finite _ hr)) := by
    decide +kernel
  exact ⟨hv, hr, value hv, rounded hv hr, nearestEven_roundHalfEven? (value hv)⟩

end Binary64

end DecimalPattern
