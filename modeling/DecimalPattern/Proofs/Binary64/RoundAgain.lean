import DecimalPattern.Proofs.Binary64.Floor
import DecimalPattern.Proofs.Binary64.Order
import Mathlib.Data.Nat.Dist
import Mathlib.Tactic.Ring

/-! # Rounding twice

A rounded number comes back from rounding at the same place. Up to `2 ^ 51` the integer that it
stands for is found again within a quarter, and beyond that the rounded number is at least as near
to the integer as the number which was rounded to it. Next to a power of two, where the distances to
the neighbours differ, another integer may be found, but that one leads to the same number.
-/

namespace DecimalPattern

-- Powers of natural numbers are the built-in ones, also beside the monoids of algebra.
attribute [local instance (2000)] instPowNat

namespace Magnitude

variable {a b den f j m n r s t w x : ℕ}

/-! ## Nearest numbers -/

theorem closest_of_dvd (pos : 0 < den) (dvd : spacing (t / den) ∣ m) :
    Nat.dist (nearestUnits t den * den) t ≤ Nat.dist (m * den) t := by
  obtain ⟨lower, upper⟩ := nearestUnits_bounds t pos
  have multiple : spacing (t / den) ∣ nearestUnits t den := Nat.dvd_mul_left _ _
  rw [Nat.mul_comm den] at lower upper
  unfold Nat.dist
  rcases Nat.lt_trichotomy m (nearestUnits t den) with lt | rfl | gt
  · have far := Nat.mul_le_mul_right den (add_le_of_dvd_of_lt dvd multiple lt)
    rw [Nat.add_mul] at far
    omega
  · exact le_rfl
  · have far := Nat.mul_le_mul_right den (add_le_of_dvd_of_lt multiple dvd gt)
    rw [Nat.add_mul] at far
    omega

/-- No number with 53 significant bits is nearer to a quotient than what it is rounded to. -/
theorem nearestUnits_closest (pos : 0 < den) (h : Precise m) :
    Nat.dist (nearestUnits t den * den) t ≤ Nat.dist (m * den) t := by
  by_cases dvd : spacing (t / den) ∣ m
  · exact closest_of_dvd pos dvd
  -- A number off the grid is below the power of two at which the grid starts.
  have lt : m.log2 < (t / den).log2 := by
    by_contra ge
    exact dvd (Nat.dvd_trans (Nat.pow_dvd_pow 2 (by omega)) h)
  have ne : t / den ≠ 0 := by
    intro zero
    rw [zero] at lt
    exact absurd lt (Nat.not_lt_zero _)
  have start := closest_of_dvd (t := t) (m := 2 ^ (t / den).log2) pos
    (Nat.pow_dvd_pow 2 (Nat.sub_le _ _))
  have below : m ≤ 2 ^ (t / den).log2 :=
    Nat.le_trans Nat.lt_log2_self.le (Nat.pow_le_pow_right Nat.two_pos lt)
  have reached := (Nat.le_div_iff_mul_le pos).mp (Nat.log2_self_le ne)
  have := Nat.mul_le_mul_right den below
  unfold Nat.dist at *
  omega

theorem exists_error (t : ℕ) (pos : 0 < den) :
    ∃ e, 2 * (nearestUnits t den * den) ≤ 2 * t + e ∧
      2 * t ≤ 2 * (nearestUnits t den * den) + e ∧ (e = den ∨ e * 2 ^ (52 : ℕ) ≤ t) := by
  obtain ⟨lower, upper⟩ := nearestUnits_bounds t pos
  refine ⟨_, lower, upper, ?_⟩
  rcases Nat.lt_or_ge (t / den) (2 ^ (53 : ℕ)) with small | large
  · exact .inl (by rw [spacing_eq_one small, Nat.mul_one])
  · right
    have grid := Nat.mul_le_mul_left den (spacing_mul_le (t / den) (by omega))
    rw [← Nat.mul_assoc] at grid
    exact Nat.le_trans grid (Nat.mul_div_le t den)

/-- A number that some number was rounded to is found again from the one nearest to it, where its
neighbours are equally far. -/
theorem nearestUnits_of_symmetric (ha : 0 < a) (hb : 0 < b) (hx : Precise x)
    (symmetric : spacingBelow w = spacing w) (forth : nearestUnits (x * a) b = w)
    (back : nearestUnits (w * b) a = r) : nearestUnits (r * a) b = w := by
  have precise : Precise w := forth ▸ precise_nearestUnits _ _
  have interval := (nearestUnits_eq_iff precise hb).mp forth
  have closest := nearestUnits_closest (t := w * b) ha hx
  rw [back] at closest
  rw [nearestUnits_eq_iff precise hb]
  rw [symmetric] at interval ⊢
  unfold Nat.dist at closest
  omega

/-- The number that leads from one to another is nearest to what that one leads to. -/
theorem nearestUnits_of_return (ha : 0 < a) (hb : 0 < b) (hw : Precise w)
    (back : nearestUnits (w * b) a = r) (forth : nearestUnits (r * a) b = s)
    (symmetric : r * a ≤ s * b ∨ spacingBelow r = spacing r) : nearestUnits (s * b) a = r := by
  have precise : Precise r := back ▸ precise_nearestUnits _ _
  have interval := (nearestUnits_eq_iff precise ha).mp back
  have closest := nearestUnits_closest (t := r * a) hb hw
  have below := Nat.mul_le_mul_right a (spacingBelow_le_spacing r)
  have room := Nat.mul_pos (spacingBelow_pos r) ha
  rw [forth] at closest
  rw [nearestUnits_eq_iff precise ha]
  unfold Nat.dist at closest
  rcases symmetric with above | eq
  · omega
  · rw [eq] at interval ⊢
    omega

/-! ## Powers of two -/

theorem exists_mantissa (h : Precise n) : ∃ m k, m ≤ 2 ^ (53 : ℕ) ∧ n = m * 2 ^ k := by
  obtain ⟨m, eq⟩ := h
  refine ⟨m, n.log2 - 52, ?_, by rw [Nat.mul_comm]; exact eq⟩
  by_contra large
  have upper := Nat.lt_log2_self (n := n)
  have lower : 2 ^ (53 : ℕ) * spacing n ≤ n := by
    calc 2 ^ (53 : ℕ) * spacing n ≤ m * spacing n :=
          Nat.mul_le_mul_right _ (Nat.le_of_not_le large)
      _ = n := by rw [Nat.mul_comm, ← eq]
  have room : 2 ^ (n.log2 + 1) ≤ 2 ^ (53 : ℕ) * spacing n := by
    rw [spacing, ← Nat.pow_add]
    exact Nat.pow_le_pow_right Nat.two_pos (by omega)
  omega

/-- A product with a power of two is exact. -/
theorem nearestUnits_two_pow_mul (h : Precise f) (large : 2 ^ (53 : ℕ) * one ≤ 2 ^ j * f) :
    nearestUnits (2 ^ j * f) one * one = 2 ^ j * f := by
  obtain ⟨m, k, few, rfl⟩ := exists_mantissa h
  obtain ⟨n, -, -, -, unit, -⟩ := exists_powers_eq
  have shape : 2 ^ j * (m * 2 ^ k) = m * 2 ^ (j + k) := by
    rw [Nat.mul_left_comm, ← Nat.pow_add]
  rw [shape] at large ⊢
  have reached : n ≤ j + k := by
    by_contra lt
    have power : 2 ^ (j + k) < 2 ^ n := Nat.pow_lt_pow_right (by decide) (by omega)
    rw [unit] at large
    have := Nat.mul_lt_mul_of_le_of_lt few power (Nat.two_pow_pos _)
    omega
  have split : m * 2 ^ (j + k) = m * 2 ^ (j + k - n) * one := by
    rw [unit, Nat.mul_assoc, ← Nat.pow_add, Nat.sub_add_cancel reached]
  rw [split, nearestUnits_of_precise one_pos (precise_of_le few)]

theorem symmetric_or_eq_two_pow (n : ℕ) : spacingBelow n = spacing n ∨ n = 2 ^ n.log2 := by
  by_cases power : n = 2 ^ n.log2
  · exact .inr power
  · exact .inl (spacingBelow_of_ne (.inl power))

/-! ## Integers -/

theorem nearestWhole_of_dvd (whole : one ∣ n) : nearestWhole n * one = n := by
  have eq : n = n / one * one := (Nat.div_mul_cancel whole).symm
  rw [nearestWhole_of_near (n := n / one) (by omega) (by omega)]
  exact eq.symm

theorem tieWidth_pos : 0 < tieWidth := by decide +kernel

/-- An even integer is taken up to one half off. -/
theorem nearestWhole_of_even (even : n % 2 = 0) (upper : s ≤ n * one + half)
    (lower : n * one ≤ s + half) : nearestWhole s = n := by
  have whole := Nat.div_add_mod s one
  have rest := Nat.mod_lt s one_pos
  have width := tieWidth_lt
  have positive := tieWidth_pos
  have halves := one_eq
  rw [Nat.mul_comm] at whole
  rw [nearestWhole]
  generalize s / one = q at *
  generalize s % one = r at *
  have le : q ≤ n := by
    by_contra gt
    have far := Nat.mul_le_mul_right one (Nat.lt_of_not_ge gt)
    rw [Nat.succ_mul] at far
    omega
  have ge : n ≤ q + 1 := by
    by_contra lt
    have far := Nat.mul_le_mul_right one (Nat.lt_of_not_ge lt)
    rw [Nat.succ_mul, Nat.succ_mul] at far
    omega
  obtain rfl | rfl : n = q ∨ n = q + 1 := by omega
  · split_ifs <;> omega
  · rw [Nat.succ_mul q] at upper lower
    split_ifs <;> omega

/-- A multiple of one half that is rounded to an odd integer is that integer. -/
theorem eq_of_nearestWhole_odd (dvd : half ∣ s) (odd : nearestWhole s % 2 = 1) :
    nearestWhole s * one = s := by
  obtain ⟨k, eq⟩ := dvd
  have rest : s % one = half * (k % 2) := by
    rw [eq, one_eq, Nat.mul_comm 2, Nat.mul_mod_mul_left]
  rcases Nat.mod_two_eq_zero_or_one k with zero | one
  · rw [zero, Nat.mul_zero] at rest
    exact nearestWhole_of_dvd (Nat.dvd_of_mod_eq_zero rest)
  · -- One half off an integer is a tie, which goes to the even one.
    rw [one, Nat.mul_one] at rest
    have width := tieWidth_pos
    rw [nearestWhole, if_pos (by omega)] at odd
    omega

theorem nearestWhole_le (s : ℕ) : nearestWhole s ≤ s / one + 1 := by
  unfold nearestWhole
  split_ifs <;> omega

theorem precise_nearestWhole (h : Precise s) : Precise (nearestWhole s * one) := by
  by_cases whole : one ∣ s
  · rw [nearestWhole_of_dvd whole]
    exact h
  · have small := lt_of_not_dvd h whole
    have := nearestWhole_le s
    exact precise_mul_one (by omega)

theorem exists_half_eq : ∃ k, one = 2 ^ (k + 1) ∧ half = 2 ^ k :=
  ⟨1073, by decide +kernel⟩

/-- From `2 ^ 51` on there are no other fractions than one half. -/
theorem half_dvd_of_large (h : Precise s) (large : 2 ^ (51 : ℕ) * one ≤ s) : half ∣ s := by
  refine Nat.dvd_trans ?_ h
  obtain ⟨k, unit, half⟩ := exists_half_eq
  have ne : s ≠ 0 := Nat.ne_of_gt (Nat.lt_of_lt_of_le (Nat.mul_pos (by decide) one_pos) large)
  rw [unit, ← Nat.pow_add, ← Nat.le_log2 ne] at large
  rw [half, spacing]
  exact Nat.pow_dvd_pow 2 (by omega)

/-! ## Moves by a power of ten -/

/-- A quotient `a / b` that is the value of a magnitude from one on, or the inverse of one. -/
inductive Scaling : ℕ → ℕ → Prop
  | product {f : ℕ} (hf : Representable f) (large : one ≤ f) : Scaling f one
  | quotient {f : ℕ} (hf : Representable f) (large : one ≤ f) : Scaling one f

namespace Scaling

theorem pos (scaling : Scaling a b) : 0 < a ∧ 0 < b := by
  have unit := one_pos
  cases scaling with
  | product _ large => exact ⟨Nat.lt_of_lt_of_le unit large, unit⟩
  | quotient _ large => exact ⟨unit, Nat.lt_of_lt_of_le unit large⟩

theorem room (scaling : Scaling a b) : 2 * a ≤ one * b := by
  obtain ⟨n, l, bits, range, unit, limit⟩ := exists_powers_eq
  cases scaling with
  | product hf large =>
    have room : 2 * unitLimit ≤ one * one := by
      rw [limit, unit, ← Nat.pow_succ', ← Nat.pow_add]
      exact Nat.pow_le_pow_right Nat.two_pos (by omega)
    have := hf.2
    omega
  | quotient hf large =>
    have two : 2 ≤ one := two_pow_le_one (n := 1) (by decide)
    rw [Nat.mul_comm one]
    exact Nat.mul_le_mul (Nat.le_trans two large) le_rfl

end Scaling

/-! ## The integer of a rounded number -/

/-- An integer that is moved back to a number. -/
structure Returns (a b n r : ℕ) : Prop where
  scaling : Scaling a b
  precise : Precise (n * one)
  back : nearestUnits (n * one * b) a = r

namespace Returns

theorem exists_error (returns : Returns a b n r) :
    ∃ e, 2 * (r * a) ≤ 2 * (n * (one * b)) + e ∧ 2 * (n * (one * b)) ≤ 2 * (r * a) + e ∧
      (2 * e ≤ one * b ∨ e * 2 ^ (52 : ℕ) ≤ n * (one * b)) := by
  obtain ⟨e, above, below, error⟩ :=
    Magnitude.exists_error (n * one * b) returns.scaling.pos.1
  rw [returns.back, Nat.mul_assoc] at above below
  rw [Nat.mul_assoc] at error
  refine ⟨e, above, below, error.imp_left fun eq => ?_⟩
  rw [eq]
  exact returns.scaling.room

/-- A product that is not below a part of an integer stays there when it is rounded. -/
theorem le_nearestUnits_part {k parts : ℕ} (hb : 0 < b) (unit : one = parts * 2 ^ k)
    (few : m ≤ 2 ^ (53 : ℕ)) (le : m * (one * b) ≤ parts * t) :
    m * one ≤ parts * nearestUnits t b := by
  have pos : 0 < parts := Nat.pos_of_mul_pos_right (unit ▸ one_pos)
  rw [unit, Nat.mul_assoc, Nat.mul_left_comm, ← Nat.mul_assoc m] at le
  rw [unit, Nat.mul_left_comm]
  exact Nat.mul_le_mul_left parts
    (le_nearestUnits hb (precise_of_le few) (Nat.le_of_mul_le_mul_left le pos))

theorem nearestUnits_part_le {k parts : ℕ} (hb : 0 < b) (unit : one = parts * 2 ^ k)
    (few : m ≤ 2 ^ (53 : ℕ)) (le : parts * t ≤ m * (one * b)) :
    parts * nearestUnits t b ≤ m * one := by
  have pos : 0 < parts := Nat.pos_of_mul_pos_right (unit ▸ one_pos)
  rw [unit, Nat.mul_assoc, Nat.mul_left_comm, ← Nat.mul_assoc m] at le
  rw [unit, Nat.mul_left_comm]
  exact Nat.mul_le_mul_left parts
    (nearestUnits_le hb (precise_of_le few) (Nat.le_of_mul_le_mul_left le pos))

/-- Small integers are found again within a quarter. -/
theorem nearestWhole_of_small (returns : Returns a b n r) (small : n < 2 ^ (51 : ℕ)) :
    nearestWhole (nearestUnits (r * a) b) = n := by
  obtain ⟨k, unit, -⟩ := exists_one_eq_four_mul
  obtain ⟨e, above, below, error⟩ := returns.exists_error
  have hb := returns.scaling.pos.2
  have few := Nat.mul_le_mul_right (one * b) small.le
  have upper := nearestUnits_part_le (m := 4 * n + 1) (t := r * a) hb unit (by omega) (by
    rw [Nat.add_mul, Nat.mul_assoc]
    omega)
  have lower := le_nearestUnits_part (m := 4 * n - 1) (t := r * a) hb unit (by omega) (by
    rw [Nat.sub_mul, Nat.mul_assoc]
    omega)
  rw [Nat.add_mul, Nat.one_mul, Nat.mul_assoc 4] at upper
  rw [Nat.sub_mul, Nat.one_mul, Nat.mul_assoc 4] at lower
  exact nearestWhole_of_near (by omega) (by omega)

/-- Even integers are found again within one half. -/
theorem nearestWhole_of_even (returns : Returns a b n r) (even : n % 2 = 0)
    (small : n < 2 ^ (52 : ℕ) ∨ n = 2 ^ (52 : ℕ) ∧ nearestUnits (r * a) b ≤ n * one) :
    nearestWhole (nearestUnits (r * a) b) = n := by
  obtain ⟨k, unit, half⟩ := exists_half_eq
  obtain ⟨e, above, below, error⟩ := returns.exists_error
  have hb := returns.scaling.pos.2
  have le : n ≤ 2 ^ (52 : ℕ) := by omega
  have few := Nat.mul_le_mul_right (one * b) le
  have halves := one_eq
  rw [Nat.pow_succ'] at unit
  have lower := le_nearestUnits_part (m := 2 * n - 1) (t := r * a) hb unit (by omega) (by
    rw [Nat.sub_mul, Nat.mul_assoc]
    omega)
  rw [Nat.sub_mul, Nat.one_mul, Nat.mul_assoc 2] at lower
  refine Magnitude.nearestWhole_of_even even ?_ (by omega)
  rcases small with lt | ⟨-, upper⟩
  · have upper := nearestUnits_part_le (m := 2 * n + 1) (t := r * a) hb unit (by omega) (by
      rw [Nat.add_mul, Nat.mul_assoc]
      omega)
    rw [Nat.add_mul, Nat.one_mul, Nat.mul_assoc 2] at upper
    omega
  · omega

/-- An integer that is itself found first and has equally far neighbours is found again. -/
theorem nearestWhole_of_symmetric (returns : Returns a b n r) (hx : Precise x)
    (forth : nearestUnits (x * a) b = n * one)
    (symmetric : spacingBelow (n * one) = spacing (n * one)) :
    nearestWhole (nearestUnits (r * a) b) = n := by
  obtain ⟨ha, hb⟩ := returns.scaling.pos
  rw [nearestUnits_of_symmetric ha hb hx symmetric forth returns.back]
  exact nearestWhole_of_near (by omega) (by omega)

/-- Above `2 ^ 52` the number does not fall below it. -/
theorem le_nearestUnits_of_large (returns : Returns a b n r) (large : 2 ^ (52 : ℕ) < n) :
    2 ^ (52 : ℕ) * one ≤ nearestUnits (r * a) b := by
  obtain ⟨e, above, below, error⟩ := returns.exists_error
  have room := Nat.mul_le_mul_right (one * b) large
  refine le_nearestUnits returns.scaling.pos.2 (precise_mul_one (by decide)) ?_
  rw [Nat.mul_assoc]
  omega

/-- A power of two is moved back exactly, or exactly forth again where the result is another one. -/
theorem le_or_symmetric_of_two_pow (returns : Returns a b n r) (power : n * one = 2 ^ j)
    (large : 2 ^ (52 : ℕ) ≤ n) (whole : 2 ^ (52 : ℕ) * one ≤ nearestUnits (r * a) b) :
    r * a ≤ nearestUnits (r * a) b * b ∨ spacingBelow r = spacing r := by
  have four : 4 ≤ one := two_pow_le_one (n := 2) (by decide)
  obtain ⟨scaling, precise, back⟩ := returns
  cases scaling with
  | product hf =>
    refine (symmetric_or_eq_two_pow r).symm.imp_left fun eq => ?_
    have double := nearestUnits_mul_le_two_mul (r * a) one_pos
    have room : 2 ^ (53 : ℕ) * one ≤ r * a := by
      have := Nat.mul_le_mul_right one whole
      have := Nat.mul_le_mul_left one four
      rw [Nat.mul_assoc] at *
      omega
    rw [eq] at room ⊢
    exact (nearestUnits_two_pow_mul hf.1 room).ge
  | quotient hf le =>
    left
    have room : 2 ^ (53 : ℕ) * one ≤ n * one * b := by
      have := Nat.mul_le_mul (Nat.mul_le_mul_right one large) (Nat.le_trans four le)
      omega
    rw [power] at room back
    have exact := nearestUnits_two_pow_mul hf.1 room
    rw [back, ← power] at exact
    rw [exact, nearestUnits_of_precise (Nat.lt_of_lt_of_le one_pos le) precise]

end Returns

/-- An integer found first that is not exact or has neighbours at different distances. -/
theorem even_of_asymmetric (hs : Precise s) (large : 2 ^ (51 : ℕ) ≤ nearestWhole s)
    (asymmetric : s = nearestWhole s * one →
      spacingBelow (nearestWhole s * one) ≠ spacing (nearestWhole s * one)) :
    nearestWhole s % 2 = 0 ∧
      (nearestWhole s < 2 ^ (52 : ℕ) ∨ ∃ j, nearestWhole s * one = 2 ^ j) := by
  obtain ⟨l, -, -, -, unit, -⟩ := exists_powers_eq
  by_cases exact : nearestWhole s * one = s
  · -- A power of two.
    generalize nearestWhole s = n at *
    have power := (symmetric_or_eq_two_pow (n * one)).resolve_left (asymmetric exact.symm)
    refine ⟨?_, .inr ⟨_, power⟩⟩
    generalize (n * one).log2 = j at power
    have lt : l < j := by
      by_contra le
      have := Nat.pow_le_pow_right Nat.two_pos (Nat.le_of_not_lt le)
      have := Nat.mul_le_mul_right one large
      have := one_pos
      omega
    rw [unit, ← Nat.sub_add_cancel lt.le, Nat.pow_add] at power
    have eq := Nat.eq_of_mul_eq_mul_right (Nat.two_pow_pos l) power
    rw [eq, ← Nat.sub_add_cancel (Nat.sub_pos_of_lt lt), Nat.pow_succ]
    exact Nat.mul_mod_left _ _
  · have fractional : ¬ one ∣ s := fun whole => exact (nearestWhole_of_dvd whole)
    have small := lt_of_not_dvd hs fractional
    have le := nearestWhole_le s
    constructor
    · -- Beyond `2 ^ 51` the number is a half off, so that the even integer was taken.
      by_contra odd
      have above : 2 ^ (51 : ℕ) * one ≤ s := (Nat.le_div_iff_mul_le one_pos).mp (by omega)
      exact exact (eq_of_nearestWhole_odd (half_dvd_of_large hs above) (by omega))
    · rcases Nat.lt_or_ge (nearestWhole s) (2 ^ (52 : ℕ)) with lt | ge
      · exact .inl lt
      · refine .inr ⟨52 + l, ?_⟩
        rw [Nat.pow_add, ← unit, show nearestWhole s = 2 ^ (52 : ℕ) by omega]

/-- A number that was moved forth, rounded and moved back comes back from the same steps. -/
theorem nearestUnits_again (scaling : Scaling a b) (hx : Precise x)
    (forth : nearestUnits (x * a) b = s)
    (back : nearestUnits (nearestWhole s * one * b) a = r) :
    nearestUnits (nearestWhole (nearestUnits (r * a) b) * one * b) a = r := by
  have precise : Precise s := forth ▸ precise_nearestUnits _ _
  have returns : Returns a b (nearestWhole s) r := ⟨scaling, precise_nearestWhole precise, back⟩
  by_cases symmetric : s = nearestWhole s * one ∧
      spacingBelow (nearestWhole s * one) = spacing (nearestWhole s * one)
  · rw [returns.nearestWhole_of_symmetric hx (forth.trans symmetric.1) symmetric.2, back]
  rcases Nat.lt_or_ge (nearestWhole s) (2 ^ (51 : ℕ)) with small | large
  · rw [returns.nearestWhole_of_small small, back]
  obtain ⟨even, power⟩ := even_of_asymmetric precise large (not_and.mp symmetric)
  generalize nearestWhole s = n at *
  rcases Nat.lt_or_ge n (2 ^ (52 : ℕ)) with small | large
  · rw [returns.nearestWhole_of_even even (.inl small), back]
  obtain ⟨j, power⟩ := power.resolve_left (Nat.not_lt.mpr large)
  rcases Nat.lt_or_ge (nearestUnits (r * a) b) (2 ^ (52 : ℕ) * one) with below | whole
  · have eq : n = 2 ^ (52 : ℕ) := by
      by_contra ne
      have := returns.le_nearestUnits_of_large (by omega)
      omega
    have le : nearestUnits (r * a) b ≤ n * one := by
      rw [eq]
      exact below.le
    rw [returns.nearestWhole_of_even even (.inr ⟨eq, le⟩), back]
  · -- Another integer may be found, which is at least as near to the number.
    obtain ⟨ha, hb⟩ := scaling.pos
    rw [nearestWhole_of_dvd (one_dvd_of_large (precise_nearestUnits _ _) whole)]
    exact nearestUnits_of_return ha hb returns.precise back rfl
      (returns.le_or_symmetric_of_two_pow power large whole)

/-! ## Rounding at a place -/

variable {hf : Representable f} {hr : Representable r} {hs : Representable s}
  {hu : Representable u} {places : ℤ}

theorem exists_nearestInteger_whole (hs : Representable s) :
    ∃ h, (finite s hs).nearestInteger = finite (nearestWhole s * one) h := by
  obtain ⟨v, hv, integer, -⟩ := isFinite_nearestInteger hs
  have eq := integer
  rw [nearestInteger_eq, ofNat, ofUnits, round_eq_finite_iff] at eq
  have exact := nearestUnits_of_precise Nat.one_pos (precise_nearestWhole hs.1)
  rw [Nat.mul_one] at exact
  obtain rfl := exact.symm.trans eq
  exact ⟨hv, integer⟩

theorem nearestInteger_again (x : Magnitude) :
    x.nearestInteger.nearestInteger = x.nearestInteger := by
  cases x with
  | infinite => rfl
  | finite s hs =>
    obtain ⟨h, integer⟩ := exists_nearestInteger_whole hs
    rw [integer, nearestInteger_of_whole rfl]

theorem round_again (scaling : Scaling a b) (hx : Precise x) (forth : round (x * a) b = finite s hs)
    (back : round (nearestWhole s * one * b) a = finite r hr)
    (again : round (r * a) b = finite u hu) :
    round (nearestWhole u * one * b) a = finite r hr := by
  rw [round_eq_finite_iff] at *
  rw [← again]
  exact nearestUnits_again scaling hx forth back

theorem roundHalfEven_infinite (places : ℤ) : infinite.roundHalfEven places = infinite := by
  rcases tenPow_cases places.natAbs with factor | ⟨f, hf, factor, -⟩
  · by_cases zero : places = 0
    · rw [roundHalfEven, if_pos zero]
      rfl
    · exact roundHalfEven_of_infinite factor zero
  · rw [roundHalfEven_of_factor factor]
    split_ifs <;> rfl

/-- Before the point the quotient is finite, and only the product may be infinite. -/
theorem roundHalfEven_before_again (hx : Representable x) (negative : places < 0)
    (factor : tenPow places.natAbs = finite f hf) (large : one ≤ f) :
    ((finite x hx).roundHalfEven places).roundHalfEven places =
      (finite x hx).roundHalfEven places := by
  have step {y : ℕ} (hy : Representable y) : ∃ s hs, round (y * one) f = finite s hs ∧
      (finite y hy).roundHalfEven places = round (nearestWhole s * one * f) one := by
    have room : y * one ≤ y * f := Nat.mul_le_mul_left y large
    obtain ⟨s, hs, quotient, -⟩ :=
      isFinite_round_of_le (Nat.lt_of_lt_of_le one_pos large) hy.1 room hy.2
    obtain ⟨h, integer⟩ := exists_nearestInteger_whole hs
    refine ⟨s, hs, quotient, ?_⟩
    rw [roundHalfEven_of_factor factor, if_neg negative.ne, if_pos negative, finite_div_finite,
      quotient, integer, finite_mul_finite]
  obtain ⟨s, hs, forth, eq⟩ := step hx
  rw [eq]
  cases back : round (nearestWhole s * one * f) one with
  | infinite => exact roundHalfEven_infinite places
  | finite r hr =>
    obtain ⟨u, hu, again, eq⟩ := step hr
    rw [eq]
    exact round_again (.quotient hf large) hx.1 forth back again

/-- After the point a number stays as it is where its product is infinite. -/
theorem roundHalfEven_after_again (hx : Representable x) (positive : 0 < places)
    (factor : tenPow places.natAbs = finite f hf) (large : one ≤ f) :
    ((finite x hx).roundHalfEven places).roundHalfEven places =
      (finite x hx).roundHalfEven places := by
  have step {y : ℕ} (hy : Representable y) : (finite y hy).roundHalfEven places = finite y hy ∨
      ∃ s hs, round (y * f) one = finite s hs ∧
        (finite y hy).roundHalfEven places = round (nearestWhole s * one * one) f := by
    rw [roundHalfEven_of_factor factor, if_neg positive.ne', if_neg positive.not_gt,
      finite_mul_finite]
    cases product : round (y * f) one with
    | infinite => exact .inl rfl
    | finite s hs =>
      obtain ⟨h, integer⟩ := exists_nearestInteger_whole hs
      refine .inr ⟨s, hs, rfl, ?_⟩
      rw [if_pos (by rfl), integer, finite_div_finite]
  rcases step hx with same | ⟨s, hs, forth, eq⟩
  · rw [same, same]
  obtain ⟨h, -⟩ := exists_nearestInteger_whole hs
  have room : nearestWhole s * one * one ≤ nearestWhole s * one * f := Nat.mul_le_mul_left _ large
  obtain ⟨r, hr, back, -⟩ :=
    isFinite_round_of_le (Nat.lt_of_lt_of_le one_pos large) h.1 room h.2
  rw [eq, back]
  rcases step hr with same | ⟨u, hu, again, eq⟩
  · exact same
  · rw [eq]
    exact round_again (.product hf large) hx.1 forth back again

theorem roundHalfEven_again (x : Magnitude) (places : ℤ) :
    (x.roundHalfEven places).roundHalfEven places = x.roundHalfEven places := by
  by_cases zero : places = 0
  · rw [roundHalfEven, if_pos zero, roundHalfEven, if_pos zero, nearestInteger_again]
  rcases tenPow_cases places.natAbs with factor | ⟨f, hf, factor, large⟩
  · rw [roundHalfEven_of_infinite factor zero, roundHalfEven_of_infinite factor zero]
  cases x with
  | infinite => rw [roundHalfEven_infinite, roundHalfEven_infinite]
  | finite x hx =>
    rcases Int.lt_or_gt_of_ne zero with negative | positive
    · exact roundHalfEven_before_again hx negative factor large
    · exact roundHalfEven_after_again hx positive factor large

end Magnitude

namespace Binary64

theorem roundHalfEven_again (x : Binary64) (places : ℤ) :
    (x.roundHalfEven places).roundHalfEven places = x.roundHalfEven places := by
  cases x with
  | nan => rfl
  | signed negative m => exact congrArg (signed negative) (m.roundHalfEven_again places)

/-- A rounded number is returned by rounding it at the same place. -/
theorem roundHalfEven?_again (x : Binary64) {places : Int32} (ne : places ≠ Int32.minValue) :
    ∃ r, x.roundHalfEven? places = some r ∧ r.roundHalfEven? places = some r := by
  refine ⟨_, x.roundHalfEven?_eq_some ne, ?_⟩
  rw [roundHalfEven?_eq_some _ ne, roundHalfEven_again]

/-- The power of ten is inexact and the product beyond `2 ^ 53`, so that the number changes without
any fraction to round off, but only once. -/
theorem roundHalfEven?_again_of_inexact :
    ∃ (hx : Representable (0x1CAC083126E979 * 2 ^ (1014 : ℕ)))
      (hr : Representable (0x1CAC083126E97A * 2 ^ (1014 : ℕ))),
      let x := signed false (.finite _ hx)
      (23 : Int32) ≠ Int32.minValue ∧
        x.roundHalfEven? 23 = some (signed false (.finite _ hr)) ∧
        ∃ r, x.roundHalfEven? 23 = some r ∧ r.roundHalfEven? 23 = some r := by
  have hx : Representable (0x1CAC083126E979 * 2 ^ (1014 : ℕ)) := by decide +kernel
  have hr : Representable (0x1CAC083126E97A * 2 ^ (1014 : ℕ)) := by decide +kernel
  have ne : (23 : Int32) ≠ Int32.minValue := by decide
  have changes : ∀ (hx : Representable (0x1CAC083126E979 * 2 ^ (1014 : ℕ)))
      (hr : Representable (0x1CAC083126E97A * 2 ^ (1014 : ℕ))),
      (signed false (.finite _ hx)).roundHalfEven? 23 = some (signed false (.finite _ hr)) := by
    decide +kernel
  exact ⟨hx, hr, ne, changes hx hr, roundHalfEven?_again _ ne⟩

end Binary64

end DecimalPattern
