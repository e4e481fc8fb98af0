import DecimalPattern.Proofs.Binary64.Arithmetic
import DecimalPattern.Proofs.Binary64.RoundAgain

/-! # The tie test

A number is a tie where it is nearer than `10⁻¹²` to the half above its floor. The sum of the floor
and one half and the distance from it are rounded like every result. Below `2 ^ 52` this makes no
difference. From there on every number is an integer: one that the sum is rounded to is even, and is
returned as the even neighbour of a tie.
-/

namespace DecimalPattern

-- Powers of natural numbers are the built-in ones, also beside the monoids of algebra.
attribute [local instance (2000)] instPowNat

variable {a : Bool} {d n s u v : ℕ} {m : Magnitude}

namespace Magnitude

theorem ofUnits_eq (h : Representable u) : ofUnits u = finite u h := by
  rw [ofUnits, round_eq_finite_iff]
  simpa using nearestUnits_of_precise Nat.one_pos h.1

theorem representable_floor (h : Representable u) : Representable (u / one * one) := by
  by_cases whole : one ∣ u
  · rwa [Nat.div_mul_cancel whole]
  · exact representable_of_lt (Nat.lt_trans (lt_of_not_dvd h.1 whole) (by decide))

theorem tieWidth_lt_unitLimit : tieWidth < unitLimit := by decide +kernel

theorem precise_tieWidth : Precise tieWidth := by
  obtain ⟨k, eq⟩ : ∃ k, tieWidth = 0x119799812DEA11 * 2 ^ k := ⟨982, rfl⟩
  rw [eq]
  exact precise_of_le (by decide)

theorem rank_ofUnits (h : Representable u) : (ofUnits u).rank = u := by rw [ofUnits_eq h, rank]

/-- Rounding does not make a difference narrower than a tie. -/
theorem rank_ofUnits_lt_iff (h : Precise d ∨ tieWidth ≤ d) :
    (ofUnits d).rank < tieWidth ↔ d < tieWidth := by
  rcases h with precise | wide
  · rcases Nat.lt_or_ge d unitLimit with lt | ge
    · rw [rank_ofUnits (precise.representable lt)]
    · have limit := tieWidth_lt_unitLimit
      have exact := nearestUnits_of_precise Nat.one_pos precise
      rw [Nat.mul_one] at exact
      rw [ofUnits, round, dif_neg (by omega), rank]
      omega
  · have reached : tieWidth ≤ nearestUnits d 1 :=
      le_nearestUnits Nat.one_pos precise_tieWidth (by omega)
    have limit := tieWidth_lt_unitLimit
    have wider : tieWidth ≤ (ofUnits d).rank := by
      rw [ofUnits, round]
      split
      · exact reached
      · exact limit.le
    omega

theorem dist_half_lt_iff :
    Nat.dist d half < tieWidth ↔ half < d + tieWidth ∧ d < half + tieWidth := by
  rw [Nat.dist]
  omega

theorem exists_half_power : ∃ k, k = 1073 ∧ one = 2 ^ (k + 1) ∧ half = 2 ^ k :=
  ⟨1073, rfl, by decide +kernel⟩

theorem representable_add_half (small : n < 2 ^ (52 : ℕ)) : Representable (n * one + half) := by
  obtain ⟨k, -, unit, middle⟩ := exists_half_power
  have halves := one_eq
  have shape : n * one + half = (2 * n + 1) * 2 ^ k := by
    rw [Nat.add_mul, ← middle, Nat.mul_assoc, Nat.mul_left_comm, ← halves, Nat.one_mul]
  have next := (representable_of_lt (n := n + 1) (by omega)).2
  rw [Nat.succ_mul] at next
  refine Precise.representable ?_ (by omega)
  rw [shape]
  exact precise_of_le (by omega)

/-- The grid of a number near one half divides one half, and few of its steps fit into it. -/
theorem precise_dist_half_of_le (h : Precise u) (small : u < 2 ^ (52 : ℕ) * one)
    (large : half ≤ 2 * u) : Precise (Nat.dist (u % one) half) := by
  obtain ⟨k, bits, unit, middle⟩ := exists_half_power
  have rest := Nat.mod_lt u one_pos
  have ne : u ≠ 0 := by
    rintro rfl
    exact absurd (middle ▸ large) (Nat.not_le_of_lt (Nat.two_pow_pos k))
  have lower : k - 1 ≤ u.log2 := by
    rw [Nat.le_log2 ne]
    rw [middle, show k = k - 1 + 1 by omega, Nat.pow_succ'] at large
    omega
  have upper : u.log2 < 52 + (k + 1) := by
    rw [Nat.log2_lt ne, Nat.pow_add, ← unit]
    exact small
  have grid : spacing u ∣ half := by
    rw [spacing, middle]
    exact Nat.pow_dvd_pow 2 (by omega)
  have gridOne : spacing u ∣ one := one_eq ▸ Nat.dvd_mul_left_of_dvd grid 2
  have gridRest := (Nat.dvd_mod_iff gridOne).mpr h
  obtain ⟨j, eq⟩ := Nat.dvd_add (Nat.dvd_sub gridRest grid) (Nat.dvd_sub grid gridRest)
  have few : j ≤ 2 ^ (53 : ℕ) := by
    by_contra many
    have far := Nat.mul_lt_mul_of_pos_left (Nat.lt_of_not_le many) (spacing_pos u)
    have room : half ≤ spacing u * 2 ^ (53 : ℕ) := by
      rw [spacing, middle, ← Nat.pow_add]
      exact Nat.pow_le_pow_right Nat.two_pos (by omega)
    have halves := one_eq
    omega
  rw [Nat.dist, eq, Nat.mul_comm]
  exact precise_of_le few

/-- The difference of a fraction and one half is exact, or too wide for a tie. -/
theorem precise_dist_half (h : Precise u) (fractional : ¬ one ∣ u) :
    Precise (Nat.dist (u % one) half) ∨ tieWidth ≤ Nat.dist (u % one) half := by
  have small := lt_of_not_dvd h fractional
  rw [Nat.div_lt_iff_lt_mul one_pos] at small
  rcases Nat.lt_or_ge (2 * u) half with low | high
  · right
    have width := tieWidth_lt
    have halves := one_eq
    rw [Nat.mod_eq_of_lt (by omega), Nat.dist]
    omega
  · exact .inl (precise_dist_half_of_le h small high)

/-- A large integer that one half is added to without a change is even. -/
theorem even_of_absorbed (h : Precise u) (large : 2 ^ (52 : ℕ) * one ≤ u)
    (absorbed : nearestUnits (u + half) 1 = u) : u / one % 2 = 0 := by
  obtain ⟨l, -, bits, -, unit, -⟩ := exists_powers_eq
  have ne : u ≠ 0 := Nat.ne_of_gt (Nat.lt_of_lt_of_le (Nat.mul_pos (by decide) one_pos) large)
  have log := large
  rw [unit, ← Nat.pow_add, ← Nat.le_log2 ne] at log
  rcases log.eq_or_lt with eq | lt
  · -- The neighbours are the next integers.
    have grid : spacing u = one := by rw [spacing, ← eq, Nat.add_sub_cancel_left, ← unit]
    have interval := ((nearestUnits_eq_iff h Nat.one_pos).mp absorbed).2.2
    have halves := one_eq
    rw [grid] at interval
    omega
  · have two : 2 * one ∣ u := by
      refine Nat.dvd_trans ?_ h
      rw [unit, ← Nat.pow_succ', spacing]
      exact Nat.pow_dvd_pow 2 (by omega)
    obtain ⟨j, eq⟩ := two
    rw [eq, Nat.mul_right_comm, Nat.mul_div_cancel _ one_pos, Nat.mul_mod_right]

end Magnitude

namespace Binary64

open Magnitude (one)

/-! ## The steps -/

/-- The distance from one half below which a number is a tie. -/
def tie : Binary64 := signed false (.ofUnits Magnitude.tieWidth)

def half : Binary64 := signed false (.ofUnits Magnitude.half)

def isTie (distance : Binary64) : Bool := tie.neg.less distance && distance.less tie

/-- Rounds a number that is not negative to an integer. -/
def nearestEven (x : Binary64) : Binary64 :=
  let whole := x.floor
  if isTie (x.sub (whole.add half)) then
    if (whole.rem (signed false (.ofNat 2))).less tie then whole
    else whole.add (signed false (.ofNat 1))
  else x.roundAway

/-! ## Operations -/

theorem half_eq : ∃ h, half = signed false (.finite Magnitude.half h) := by
  have h : Representable Magnitude.half := by decide +kernel
  exact ⟨h, by rw [half, Magnitude.ofUnits_eq h]⟩

theorem rank_tie : (Magnitude.ofUnits Magnitude.tieWidth).rank = Magnitude.tieWidth :=
  Magnitude.rank_ofUnits (Magnitude.precise_tieWidth.representable Magnitude.tieWidth_lt_unitLimit)

theorem isTie_signed (a : Bool) (m : Magnitude) :
    isTie (signed a m) = decide (m.rank < Magnitude.tieWidth) := by
  have width := Magnitude.tieWidth_pos
  rw [Bool.eq_iff_iff]
  simp only [isTie, tie, neg, less, rank_tie, Bool.and_eq_true, decide_eq_true_eq]
  generalize Magnitude.tieWidth = w at width ⊢
  cases a <;> simp [signedUnits] <;> omega

theorem signedUnits_eq (sign : a = true → u = 0) : signedUnits a u = u := by
  cases a with
  | false => rfl
  | true =>
    rw [sign rfl]
    rfl

theorem floor_finite (h : Representable u) (sign : a = true → u = 0) :
    (signed a (.finite u h)).floor =
      signed a (.finite (u / one * one) (Magnitude.representable_floor h)) := by
  have whole : ¬ (a ∧ u % one ≠ 0) := by
    rintro ⟨negative, ne⟩
    rw [sign negative, Nat.zero_mod] at ne
    exact ne rfl
  simp only [floor, if_neg whole, Magnitude.ofNat_eq (Magnitude.representable_floor h)]

/-- The sum of numbers that are not negative, of which one is positive. -/
theorem add_of_pos {hu : Representable u} {hv : Representable v} (sign : a = true → u = 0)
    (pos : 0 < v) : (signed a (.finite u hu)).add (signed false (.finite v hv)) =
      signed false (.ofUnits (u + v)) := by
  have sum : signedUnits a u + signedUnits false v = ((u + v : ℕ) : ℤ) := by
    rw [signedUnits_eq sign, Nat.cast_add]
    rfl
  have negative : decide (((u + v : ℕ) : ℤ) < 0) = false := decide_eq_false (by omega)
  have ne : ((u + v : ℕ) : ℤ) ≠ 0 := by omega
  rw [add, sum, if_neg ne, negative, Int.natAbs_natCast]

theorem sub_finite (hu : Representable u) (hv : Representable v) (sign : a = true → u = 0) :
    ∃ b, (signed a (.finite u hu)).sub (signed false (.finite v hv)) =
      signed b (.ofUnits (Nat.dist u v)) := by
  have difference : signedUnits a u + signedUnits true v = (u : ℤ) - v := by
    rw [signedUnits_eq sign]
    rfl
  have size : ((u : ℤ) - v).natAbs = Nat.dist u v := by
    rw [Nat.dist]
    omega
  rw [sub, neg, Bool.not_false, add, difference, size]
  exact ⟨_, rfl⟩

theorem ofNat_eq_ofUnits (n : ℕ) : Magnitude.ofNat n = .ofUnits (n * one) := rfl

/-- The test for an even integer looks at a remainder, which is exact. -/
theorem less_rem_two (h : Representable (n * one)) (sign : a = true → n * one = 0) :
    ((signed a (.finite (n * one) h)).rem (signed false (.ofNat 2))).less tie = true ↔
      n % 2 = 0 := by
  have two : Representable (2 * one) := Magnitude.representable_of_lt (by decide)
  have ne : 2 * one ≠ 0 := (Nat.mul_pos Nat.two_pos Magnitude.one_pos).ne'
  have rest : Representable (n % 2 * one) := Magnitude.representable_of_lt (by omega)
  have width := Magnitude.tieWidth_lt
  have halves := Magnitude.one_eq
  have positive := Magnitude.tieWidth_pos
  have remainder : a = true → n % 2 * one = 0 := fun negative => by
    rcases Nat.mul_eq_zero.mp (sign negative) with zero | zero
    · rw [zero, Nat.zero_mod, Nat.zero_mul]
    · exact absurd zero Magnitude.one_pos.ne'
  rw [Magnitude.ofNat_eq two, rem, if_neg ne, Nat.mul_mod_mul_right, tie, less, decide_eq_true_eq,
    rank_tie, Magnitude.rank_ofUnits rest, signedUnits_eq remainder, signedUnits_false,
    Int.ofNat_lt]
  rcases Nat.mod_two_eq_zero_or_one n with even | odd
  · rw [even, Nat.zero_mul]
    exact iff_of_true positive rfl
  · rw [odd, Nat.one_mul]
    omega

/-! ## Integers -/

/-- What the tie test decides between. -/
theorem nearestEven_finite (h : Representable u) (sign : a = true → u = 0) :
    (signed a (.finite u h)).nearestEven =
      if isTie ((signed a (.finite u h)).sub
          (signed false (.ofUnits (u / one * one + Magnitude.half)))) then
        if u / one % 2 = 0 then signed a (.ofNat (u / one))
        else signed false (.ofNat (u / one + 1))
      else signed a (.ofNat ((u + Magnitude.half) / one)) := by
  have floor := Magnitude.representable_floor h
  have first : Representable (1 * one) := Magnitude.representable_of_lt (by decide)
  have signFloor : a = true → u / one * one = 0 := fun negative => by
    rw [sign negative, Nat.zero_div, Nat.zero_mul]
  have positive := Magnitude.one_pos
  have width := Magnitude.tieWidth_lt
  obtain ⟨hhalf, half⟩ := half_eq
  rw [nearestEven, floor_finite h sign, half, add_of_pos signFloor (by omega),
    Magnitude.ofNat_eq first, add_of_pos signFloor (by omega), roundAway]
  simp only [less_rem_two floor signFloor, Magnitude.ofNat_eq floor, ofNat_eq_ofUnits (u / one + 1),
    Nat.add_mul]

/-- Below `2 ^ 52` the sum and the difference in the tie test are exact. -/
theorem nearestEven_of_fraction (h : Representable u) (fractional : ¬ one ∣ u) :
    (signed false (.finite u h)).nearestEven =
      signed false (Magnitude.finite u h).nearestInteger := by
  have small := Magnitude.lt_of_not_dvd h.1 fractional
  have whole := Nat.div_add_mod u one
  have rest := Nat.mod_lt u Magnitude.one_pos
  have width := Magnitude.tieWidth_lt
  have halves := Magnitude.one_eq
  rw [Nat.mul_comm] at whole
  have sum := Magnitude.representable_add_half small
  obtain ⟨b, difference⟩ := sub_finite (a := false) h sum nofun
  have distance : Nat.dist u (u / one * one + Magnitude.half) =
      Nat.dist (u % one) Magnitude.half := by
    rw [Nat.dist, Nat.dist]
    omega
  have test := Magnitude.rank_ofUnits_lt_iff (Magnitude.precise_dist_half h.1 fractional)
  rw [nearestEven_finite (a := false) h nofun, Magnitude.ofUnits_eq sum, difference, isTie_signed,
    distance, Magnitude.nearestInteger_eq, Magnitude.nearestWhole]
  simp only [decide_eq_true_eq, test, Magnitude.dist_half_lt_iff]
  split_ifs with tied even low
  · rw [even, Nat.add_zero]
  · rw [(Nat.mod_two_eq_zero_or_one _).resolve_left even]
  · rw [Nat.div_eq_of_lt_le (k := u / one) (by omega) (by rw [Nat.succ_mul]; omega)]
  · rw [Nat.div_eq_of_lt_le (k := u / one + 1) (by rw [Nat.succ_mul]; omega)
      (by rw [Nat.succ_mul, Nat.succ_mul]; omega)]

/-- An integer that is taken for a tie is even: its sum with one half is rounded down to it. -/
theorem even_of_isTie (h : Representable u) (whole : one ∣ u) (sign : a = true → u = 0)
    (tied : isTie ((signed a (.finite u h)).sub
      (signed false (.ofUnits (u + Magnitude.half))))) : u / one % 2 = 0 := by
  have width := Magnitude.tieWidth_lt
  have halves := Magnitude.one_eq
  cases sum : Magnitude.ofUnits (u + Magnitude.half) with
  | infinite =>
    have limit := Magnitude.tieWidth_lt_unitLimit
    rw [sum, sub, neg, Bool.not_false, add, isTie_signed, decide_eq_true_eq, Magnitude.rank] at tied
    omega
  | finite s hs =>
    obtain ⟨b, difference⟩ := sub_finite h hs sign
    rw [sum, difference, isTie_signed, decide_eq_true_eq] at tied
    have narrow : Nat.dist u s < Magnitude.tieWidth := by
      by_contra wide
      have := (Magnitude.rank_ofUnits_lt_iff (.inr (Nat.le_of_not_lt wide))).mp tied
      omega
    rw [Nat.dist] at narrow
    have nearest := Magnitude.round_eq_finite_iff.mp sum
    rcases Nat.lt_or_ge u (2 ^ (52 : ℕ) * one) with small | large
    · have exact := Magnitude.representable_add_half (Nat.div_lt_of_lt_mul (by rwa [Nat.mul_comm]))
      rw [Nat.div_mul_cancel whole] at exact
      rw [Magnitude.ofUnits_eq exact] at sum
      obtain rfl := Magnitude.finite.inj sum
      omega
    · have le : u ≤ s := nearest ▸ Magnitude.le_nearestUnits Nat.one_pos h.1 (by omega)
      have wholeSum := Magnitude.one_dvd_of_large hs.1 (Nat.le_trans large le)
      rcases le.eq_or_lt with rfl | lt
      · exact Magnitude.even_of_absorbed h.1 large nearest
      · have := Magnitude.add_le_of_dvd_of_lt whole wholeSum lt
        omega

theorem nearestEven_of_whole (h : Representable u) (whole : one ∣ u) (sign : a = true → u = 0) :
    (signed a (.finite u h)).nearestEven = signed a (.finite u h) := by
  have eq : u / one * one = u := Nat.div_mul_cancel whole
  have halves := Magnitude.one_eq
  have width := Magnitude.tieWidth_lt
  have self : Magnitude.ofNat (u / one) = .finite u h := by
    rw [Magnitude.ofNat_eq (by rwa [eq])]
    simp only [eq]
  have away : (u + Magnitude.half) / one = u / one :=
    Nat.div_eq_of_lt_le (by omega) (by rw [Nat.succ_mul]; omega)
  rw [nearestEven_finite h sign, away, eq, self]
  split_ifs with tied odd
  · rfl
  · exact absurd (even_of_isTie h whole sign tied) odd
  · rfl

/-- The tie test in binary64 has the answer of the exact one, or makes no difference. -/
theorem nearestEven_eq (m : Magnitude) (sign : a = true → m.isZero) :
    (signed a m).nearestEven = signed a m.nearestInteger := by
  cases m with
  | infinite =>
    -- The distance of infinity from itself is not-a-number.
    obtain ⟨h, half⟩ := half_eq
    have test : isTie ((signed a .infinite).sub (signed a .infinite)) = false := by
      cases a <;> rfl
    have floor : (signed a .infinite).floor = signed a .infinite := rfl
    rw [nearestEven, half, floor, add, test]
    rfl
  | finite u h =>
    have sign : a = true → u = 0 := fun negative => eq_of_beq (sign negative)
    by_cases whole : one ∣ u
    · rw [nearestEven_of_whole h whole sign,
        Magnitude.nearestInteger_of_whole (Nat.div_mul_cancel whole).symm]
    · cases a with
      | false => exact nearestEven_of_fraction h whole
      | true => exact absurd (sign rfl ▸ Nat.dvd_zero one) whole

theorem nearestEven_nan : nan.nearestEven = nan := rfl

end Binary64

end DecimalPattern
