import DecimalPattern.Proofs.Binary64.HalfEven
import DecimalPattern.Proofs.Binary64.Shortest

/-! # The numeral of a floor

The shortest decimal of a magnitude with a fraction lies between the two integers around it, so that
its integer digits are those of the floor. They are exact below `2 ^ 53`, and from there on they are
those of a whole number that reads back.
-/

namespace DecimalPattern

-- Powers of natural numbers are the built-in ones, also beside the monoids of algebra.
attribute [local instance (2000)] instPowNat

variable {units n : ℕ}

namespace Magnitude

/-- The largest whole magnitude that is not above a magnitude. -/
def floor : Magnitude → Magnitude
  | finite units _ => ofNat (units / one)
  | infinite => infinite

theorem lt_of_not_dvd (h : Precise units) (fractional : ¬ one ∣ units) :
    units / one < 2 ^ (52 : ℕ) := by
  by_contra large
  refine fractional (one_dvd_of_large h ?_)
  exact (Nat.le_div_iff_mul_le one_pos).mp (Nat.le_of_not_lt large)

theorem integerPart_shortest (h : Representable units) (fractional : ¬ one ∣ units) :
    (shortest units).integerPart = units / one := by
  have small := lt_of_not_dvd h.1 fractional
  have nearest := nearestUnits_shortest h
  have places : 0 < 10 ^ (shortest units).places := Nat.pow_pos (by decide)
  have below := Nat.div_mul_le_self units one
  have above : units < (units / one + 1) * one := by
    rw [Nat.mul_comm]
    exact Nat.lt_mul_div_succ units one_pos
  rw [Decimal.integerPart]
  refine Nat.div_eq_of_lt_le ?_ ?_
  · by_contra lt
    have le := Nat.mul_le_mul_right one (Nat.le_of_not_le lt)
    rw [Nat.mul_right_comm] at le
    have := nearest ▸ nearestUnits_le places (precise_mul_one (by omega)) le
    exact fractional ⟨units / one, by rw [Nat.mul_comm]; omega⟩
  · by_contra ge
    have le := Nat.mul_le_mul_right one (Nat.le_of_not_lt ge)
    rw [Nat.mul_right_comm] at le
    have := nearest ▸ le_nearestUnits places (precise_mul_one (by omega)) le
    omega

/-- A whole magnitude is written as a whole number that reads back, the exact one where it has at
most 53 bits. -/
theorem exists_numeral_of_dvd (h : Representable units) (whole : one ∣ units) :
    ∃ n, (finite units h).numeral = ⟨digits n, []⟩ ∧ ofNat n = finite units h ∧
      (units / one < 2 ^ (53 : ℕ) → n = units / one) := by
  have zero := (places_shortest_eq_zero_iff h).mpr whole
  have nearest := nearestUnits_shortest h
  rw [zero, Nat.pow_zero] at nearest
  refine ⟨(shortest units).coefficient, ?_, ?_, fun small => ?_⟩
  · rw [numeral, Decimal.numeral, Decimal.integerPart, Decimal.fractionDigits, zero, if_pos rfl,
      Nat.pow_zero, Nat.div_one]
  · rw [ofNat, ofUnits, round_eq_finite_iff]
    exact nearest
  · have few : (shortest units).coefficient ≤ 2 ^ (53 : ℕ) := by
      by_contra large
      have le := Nat.mul_le_mul_right one (Nat.le_of_not_le large)
      have reached := le_nearestUnits Nat.one_pos (precise_mul_one le_rfl)
        ((Nat.mul_one _).trans_le le)
      rw [nearest, ← Nat.le_div_iff_mul_le one_pos] at reached
      omega
    have exact := nearestUnits_of_precise Nat.one_pos (precise_mul_one few)
    rw [Nat.mul_one, nearest] at exact
    exact (Nat.div_eq_of_eq_mul_left one_pos exact).symm

theorem floor_of_dvd (h : Representable units) (whole : one ∣ units) :
    floor (finite units h) = finite units h := by
  have eq : units / one * one = units := Nat.div_mul_cancel whole
  have representable : Representable (units / one * one) := by rwa [eq]
  rw [floor, ofNat_eq representable]
  simp only [eq]

/-- The numeral of the floor, and how it relates to the one of the magnitude. -/
theorem exists_numeral_floor (h : Representable units) :
    ∃ n, (floor (finite units h)).numeral = ⟨digits n, []⟩ ∧
      (finite units h).numeral.integer = digits n ∧ ofNat n = floor (finite units h) ∧
      (units / one < 2 ^ (53 : ℕ) → n = units / one) := by
  by_cases whole : one ∣ units
  · obtain ⟨n, written, reads, exact⟩ := exists_numeral_of_dvd h whole
    rw [floor_of_dvd h whole]
    exact ⟨n, written, congrArg Numeral.integer written, reads, exact⟩
  · have small := lt_of_not_dvd h.1 whole
    have representable := representable_of_lt (n := units / one) (by omega)
    obtain ⟨n, numeral, -, exact⟩ := exists_numeral_of_dvd representable (Nat.dvd_mul_left _ _)
    rw [Nat.mul_div_cancel _ one_pos] at exact
    obtain rfl := exact (by omega)
    refine ⟨units / one, ?_, ?_, rfl, fun _ => rfl⟩
    · rw [floor, ofNat_eq representable, numeral]
    · rw [Magnitude.numeral, Decimal.numeral, integerPart_shortest h whole]

theorem integer_numeral_floor (r : Magnitude) :
    r.numeral.integer = r.floor.numeral.integer := by
  cases r with
  | infinite => rfl
  | finite units h =>
    obtain ⟨n, floor, integer, -⟩ := exists_numeral_floor h
    rw [integer, floor]

theorem isZero_floor_iff (r : Magnitude) : r.floor.isZero ↔ r.floor? = some 0 := by
  cases r with
  | infinite => exact iff_of_false Bool.false_ne_true nofun
  | finite units h =>
    rw [floor?, Option.some_inj]
    by_cases whole : one ∣ units
    · rw [floor_of_dvd h whole, isZero, beq_iff_eq, Nat.div_eq_zero_iff_lt one_pos]
      exact ⟨fun zero => zero.trans_lt one_pos, Nat.eq_zero_of_dvd_of_lt whole⟩
    · have small := lt_of_not_dvd h.1 whole
      rw [floor, ofNat_eq (representable_of_lt (by omega)), isZero, beq_iff_eq, Nat.mul_eq_zero]
      exact or_iff_left one_pos.ne'

end Magnitude

end DecimalPattern
