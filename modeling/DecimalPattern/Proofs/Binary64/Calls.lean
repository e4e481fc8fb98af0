import DecimalPattern.Proofs.Binary64.TieTest

/-! # Rounding call by call

Rounding at a decimal place as a recursion on numbers with a sign: a negative number is rounded by
its opposite, and a place other than the units by a number that is moved there. Every step is one
operation of binary64 or of 32-bit numbers.
-/

namespace DecimalPattern

-- Powers of natural numbers are the built-in ones, also beside the monoids of algebra.
attribute [local instance (2000)] instPowNat

variable {a : Bool} {f calls : ℕ} {x : Binary64} {m : Magnitude} {places : Int32}

namespace Magnitude

theorem rank_eq_zero_iff : m.rank = 0 ↔ m.isZero := by
  cases m with
  | infinite =>
    have limit := tieWidth_lt_unitLimit
    exact ⟨fun eq => absurd (show unitLimit = 0 from eq) (by omega), nofun⟩
  | finite u h => exact beq_iff_eq.symm

/-- Zero stays zero when it is moved by a finite factor. -/
theorem isZero_moved (hf : Representable f) (zero : m.isZero) :
    (m * finite f hf).isZero ∧ (m / finite f hf).isZero := by
  cases m with
  | infinite => contradiction
  | finite u h =>
    obtain rfl : u = 0 := eq_of_beq zero
    rw [finite_mul_finite, finite_div_finite, Nat.zero_mul, Nat.zero_mul, round_zero h,
      round_zero h]
    exact ⟨rfl, rfl⟩

end Magnitude

namespace Binary64

/-- The absolute value, if it is a 32-bit number too. -/
def abs? (places : Int32) : Option ℕ :=
  if places.toInt.natAbs < 2 ^ (31 : ℕ) then some places.toInt.natAbs else none

/-- Rounding in a bounded number of calls, the first one counted. -/
def roundIn? : (calls : ℕ) → Binary64 → Int32 → Option Binary64
  | 0, _, _ => none
  | calls + 1, x, places =>
    if x.less (signed false .zero) then (roundIn? calls x.neg places).map neg
    else if places = 0 then some x.nearestEven
    else do
      let factor := signed false (.tenPow (← abs? places))
      if !factor.isFinite then some x
      else if 0 < places then
        let scaled := x.mul factor
        if !scaled.isFinite then some x else (roundIn? calls scaled 0).map (·.div factor)
      else (roundIn? calls (x.div factor) 0).map (·.mul factor)

/-! ## Operations -/

theorem abs?_eq_some (ne : places ≠ Int32.minValue) : abs? places = some places.toInt.natAbs := by
  have lower := Int32.le_toInt places
  have upper := Int32.toInt_lt places
  have least : places.toInt ≠ -2 ^ (31 : ℕ) := fun eq => ne (Int32.toInt_inj.mp eq)
  rw [abs?, if_pos (by omega)]

/-- The test for a negative number. -/
theorem less_zero (x : Binary64) : x.less (signed false .zero) = x.isNegative := by
  have zero : Magnitude.zero.rank = 0 :=
    Magnitude.rank_ofUnits ⟨Nat.dvd_zero _, Nat.zero_lt_of_lt Magnitude.tieWidth_lt_unitLimit⟩
  cases x with
  | nan => rfl
  | signed a m =>
    have units := Magnitude.rank_eq_zero_iff (m := m)
    rw [less, zero, isNegative, Bool.eq_iff_iff]
    cases a with
    | false => simp [signedUnits]
    | true => simp [signedUnits, units, Nat.pos_iff_ne_zero]

theorem isNegative_signed_eq_false : (signed a m).isNegative = false ↔ (a = true → m.isZero) := by
  simp [isNegative]

/-- A call with a number that is not negative. -/
theorem roundIn?_succ (ne : places ≠ Int32.minValue) (sign : x.isNegative = false) :
    roundIn? (calls + 1) x places =
      let factor := signed false (.tenPow places.toInt.natAbs)
      if places.toInt = 0 then some x.nearestEven
      else if !factor.isFinite then some x
      else if places.toInt < 0 then (roundIn? calls (x.div factor) 0).map (·.mul factor)
      else if (x.mul factor).isFinite then (roundIn? calls (x.mul factor) 0).map (·.div factor)
      else some x := by
  have units : places = 0 ↔ places.toInt = 0 := by rw [← Int32.toInt_inj, Int32.toInt_zero]
  have after : 0 < places ↔ 0 < places.toInt := by
    rw [Int32.lt_iff_toInt_lt, Int32.toInt_zero]
  rw [roundIn?, less_zero, sign, if_neg Bool.false_ne_true, abs?_eq_some ne]
  simp only [units, after, Option.bind_eq_bind, Option.bind_some]
  rcases Int.lt_trichotomy places.toInt 0 with before | zero | positive
  · rw [if_neg before.ne, if_neg before.ne, if_neg before.not_gt, if_pos before]
  · rw [if_pos zero, if_pos zero]
  · rw [if_neg positive.ne', if_neg positive.ne', if_pos positive, if_neg positive.not_gt]
    cases (x.mul (signed false (.tenPow places.toInt.natAbs))).isFinite <;> rfl

/-- At the units one call is enough. -/
theorem roundIn?_units (calls : ℕ) (sign : a = true → m.isZero) :
    roundIn? (calls + 1) (signed a m) 0 = some (signed a m.nearestInteger) := by
  rw [roundIn?_succ (by decide) (isNegative_signed_eq_false.mpr sign), nearestEven_eq m sign]
  rfl

/-- At another place there is one more call, with the number that is moved. -/
theorem roundIn?_of_factor {hf : Representable f} (ne : places ≠ Int32.minValue)
    (factor : Magnitude.tenPow places.toInt.natAbs = .finite f hf) (pos : 0 < f)
    (sign : a = true → m.isZero) :
    roundIn? (calls + 2) (signed a m) places = some (signed a (m.roundHalfEven places.toInt)) := by
  have finite : (Magnitude.finite f hf).isFinite = true := rfl
  have zeros negative := Magnitude.isZero_moved hf (sign negative)
  have product := roundIn?_units calls fun negative => (zeros negative).1
  have quotient := roundIn?_units calls fun negative => (zeros negative).2
  rw [roundIn?_succ ne (isNegative_signed_eq_false.mpr sign), nearestEven_eq m sign,
    Magnitude.roundHalfEven_of_factor factor, factor]
  simp only [mul_factor pos, div_factor pos, product, quotient, Option.map_some, finite,
    isFinite_signed, Bool.not_true, Bool.false_eq_true, if_false]
  split_ifs <;> rfl

theorem roundIn?_of_infinite (ne : places ≠ Int32.minValue)
    (factor : Magnitude.tenPow places.toInt.natAbs = .infinite) (sign : a = true → m.isZero) :
    roundIn? (calls + 1) (signed a m) places = some (signed a (m.roundHalfEven places.toInt)) := by
  have infinite : Magnitude.infinite.isFinite = false := rfl
  rw [roundIn?_succ ne (isNegative_signed_eq_false.mpr sign), nearestEven_eq m sign,
    Magnitude.roundHalfEven, factor]
  simp only [isFinite_signed, infinite, Bool.not_false, if_true]
  split_ifs <;> rfl

theorem roundIn?_nan (ne : places ≠ Int32.minValue) :
    roundIn? (calls + 2) nan places = some nan := by
  have moved (y : Binary64) : nan.mul y = nan ∧ nan.div y = nan := by cases y <;> exact ⟨rfl, rfl⟩
  have still : roundIn? (calls + 1) nan 0 = some nan := by
    rw [roundIn?_succ (by decide) rfl, nearestEven_nan]
    rfl
  rw [roundIn?_succ ne rfl, nearestEven_nan]
  simp only [moved, still, Option.map_some, ite_self]

theorem roundIn?_of_not_isNegative (calls : ℕ) (ne : places ≠ Int32.minValue) (x : Binary64)
    (sign : x.isNegative = false) :
    roundIn? (calls + 2) x places = some (x.roundHalfEven places.toInt) := by
  cases x with
  | nan => exact roundIn?_nan ne
  | signed a m =>
    have sign := isNegative_signed_eq_false.mp sign
    rcases Magnitude.tenPow_cases places.toInt.natAbs with factor | ⟨f, hf, factor, large⟩
    · exact roundIn?_of_infinite ne factor sign
    · exact roundIn?_of_factor ne factor (Nat.lt_of_lt_of_le Magnitude.one_pos large) sign

/-- A negative number takes a further call. -/
theorem roundIn?_eq (calls : ℕ) (ne : places ≠ Int32.minValue) (x : Binary64) :
    roundIn? (calls + 3) x places = some (x.roundHalfEven places.toInt) := by
  by_cases negative : x.isNegative
  · cases x with
    | nan => contradiction
    | signed a m =>
      obtain ⟨rfl, -⟩ : a = true ∧ _ := Bool.and_eq_true_iff.mp negative
      have opposite := roundIn?_of_not_isNegative calls ne (signed false m) rfl
      rw [roundIn?, less_zero, if_pos negative, neg, Bool.not_true, opposite]
      rfl
  · exact roundIn?_of_not_isNegative (calls + 1) ne x (Bool.eq_false_iff.mpr negative)

theorem abs?_minValue : abs? Int32.minValue = none := by decide

/-- However many calls there may be, the last one fails to take the absolute value. -/
theorem roundIn?_minValue (calls : ℕ) (x : Binary64) :
    roundIn? calls x Int32.minValue = none := by
  induction calls generalizing x with
  | zero => rfl
  | succ calls ih =>
    rw [roundIn?, ih, if_neg (show Int32.minValue ≠ 0 by decide), abs?_minValue]
    split_ifs <;> rfl

/-- At every place but the least, which has no absolute value, three calls are enough, and only
not-a-number is rounded to not-a-number. -/
theorem roundHalfEven?_total (x : Binary64) {places : Int32} (ne : places ≠ Int32.minValue) :
    ∃ r, x.roundHalfEven? places = some r ∧ roundIn? 3 x places = some r ∧ (r = nan ↔ x = nan) := by
  refine ⟨_, roundHalfEven?_eq_some x ne, roundIn?_eq 0 ne x, ?_⟩
  cases x <;> simp [roundHalfEven]

/-- The largest number below zero, rounded before the point to infinity; two calls do not do. -/
theorem roundHalfEven?_total_of_largest :
    ∃ h : Representable (unitLimit - 2 ^ (2045 : ℕ)),
      let x := signed true (.finite _ h)
      (-308 : Int32) ≠ Int32.minValue ∧ x.roundHalfEven? (-308) = some (signed true .infinite) ∧
        roundIn? 2 x (-308) = none ∧
        ∃ r, x.roundHalfEven? (-308) = some r ∧ roundIn? 3 x (-308) = some r ∧
          (r = nan ↔ x = nan) := by
  have h : Representable (unitLimit - 2 ^ (2045 : ℕ)) := by decide +kernel
  have ne : (-308 : Int32) ≠ Int32.minValue := by decide
  have steps : ∀ h : Representable (unitLimit - 2 ^ (2045 : ℕ)),
      (signed true (.finite _ h)).roundHalfEven? (-308) = some (signed true .infinite) ∧
        roundIn? 2 (signed true (.finite _ h)) (-308) = none := by
    decide +kernel
  exact ⟨h, ne, (steps h).1, (steps h).2, roundHalfEven?_total _ ne⟩

/-- At the least place one is refused, and at the place beside it one is returned. -/
theorem roundHalfEven?_of_least_place :
    let x := signed false (.ofNat 1)
    x.roundHalfEven? Int32.minValue = none ∧ (∀ calls, roundIn? calls x Int32.minValue = none) ∧
      x.roundHalfEven? (Int32.minValue + 1) = some x := by
  have beside : (signed false (.ofNat 1)).roundHalfEven? (Int32.minValue + 1) =
      some (signed false (.ofNat 1)) := by decide +kernel
  exact ⟨rfl, fun calls => roundIn?_minValue calls _, beside⟩

end Binary64

end DecimalPattern
