import DecimalPattern.Binary64.Shortest
import DecimalPattern.Proofs.Binary64.Rounding

/-! # Decimals that read back

A decimal reads back as a magnitude when it is rounded to it. The shortest one does, and no
multiple of a higher power of ten does.
-/

namespace DecimalPattern

-- Powers of natural numbers are the built-in ones, also beside the monoids of algebra.
attribute [local instance (2000)] instPowNat

variable {a b num den m n t units power : ℕ}

namespace Magnitude

/-! ## The interval around a magnitude -/

theorem add_le_of_dvd_of_lt {step : ℕ} (ha : step ∣ a) (hb : step ∣ b) (lt : a < b) :
    a + step ≤ b := by
  obtain ⟨i, rfl⟩ := ha
  obtain ⟨j, rfl⟩ := hb
  rw [← Nat.mul_succ]
  exact Nat.mul_le_mul_left step (Nat.lt_of_mul_lt_mul_left lt)

theorem spacing_congr {q : ℕ} (eq : q.log2 = n) : spacing q = 2 ^ (n - 52) := by
  rw [spacing, eq]

theorem precise_two_pow (n : ℕ) : Precise (2 ^ n) := by
  rw [← Nat.one_mul (2 ^ n)]
  exact precise_of_le (by decide)

/-- On the grid near the quotient the midpoints decide. -/
theorem nearestUnits_eq_iff_of_dvd (pos : 0 < den) (dvd : spacing (num / den) ∣ units) :
    nearestUnits num den = units ↔
      2 * (units * den) ≤ 2 * num + spacing (num / den) * den ∧
      2 * num ≤ 2 * (units * den) + spacing (num / den) * den ∧
      (units / spacing (num / den) % 2 = 1 →
        2 * (units * den) < 2 * num + spacing (num / den) * den ∧
          2 * num < 2 * (units * den) + spacing (num / den) * den) := by
  have positive := spacing_pos (num / den)
  rw [nearestUnits]
  generalize spacing (num / den) = grid at *
  obtain ⟨k, rfl⟩ := dvd
  rw [Nat.mul_div_cancel_left k positive, Nat.mul_comm _ grid, Nat.mul_right_inj positive.ne',
    roundQuotient_eq_iff (Nat.mul_pos pos positive), Nat.mul_comm den grid,
    Nat.mul_comm grid k, Nat.mul_assoc]

/-- What has a number as its nearest, or lies between the midpoints to its neighbours. -/
def Near (num den units : ℕ) : Prop :=
  nearestUnits num den = units ∨
    2 * (units * den) ≤ 2 * num + spacingBelow units * den ∧
      2 * num ≤ 2 * (units * den) + spacing units * den

theorem log2_eq_of_near_above (h : Precise units) (pos : 0 < den) (near : Near num den units)
    (above : units * den ≤ num) : (num / den).log2 = units.log2 := by
  have le : units ≤ num / den := (Nat.le_div_iff_mul_le pos).mpr above
  have lt : num / den < 2 ^ (units.log2 + 1) := by
    rw [Nat.div_lt_iff_lt_mul pos]
    by_contra ge
    rcases near with rounded | ⟨-, upper⟩
    · have := le_nearestUnits pos (precise_two_pow (units.log2 + 1)) (Nat.le_of_not_lt ge)
      have := Nat.lt_log2_self (n := units)
      omega
    · have room : units + spacing units ≤ 2 ^ (units.log2 + 1) :=
        add_le_of_dvd_of_lt h (Nat.pow_dvd_pow 2 (by omega)) Nat.lt_log2_self
      have := Nat.mul_le_mul_right den room
      have := Nat.mul_pos (spacing_pos units) pos
      rw [Nat.add_mul] at *
      omega
  by_cases zero : units = 0
  · subst zero
    obtain eq | eq := Nat.le_one_iff_eq_zero_or_eq_one.mp (Nat.le_of_lt_succ lt)
    · rw [eq]
    · rw [eq]
      rfl
  · rw [Nat.log2_eq_iff (by omega)]
    exact ⟨Nat.le_trans (Nat.log2_self_le zero) le, lt⟩

theorem log2_le_log2 (le : a ≤ b) : a.log2 ≤ b.log2 := by
  rw [Nat.log2_eq_log_two, Nat.log2_eq_log_two]
  exact Nat.log_mono_right le

theorem spacingBelow_of_two_pow (wide : 52 < n) : spacingBelow (2 ^ n) = 2 ^ (n - 1 - 52) := by
  have double : 2 ^ (n - 52) = 2 ^ (n - 1 - 52) * 2 := by
    rw [← Nat.pow_succ]
    congr 1
    omega
  have one_lt : 1 < 2 ^ (n - 52) := Nat.one_lt_two_pow (by omega)
  rw [spacingBelow, spacing, Nat.log2_two_pow, if_pos ⟨rfl, one_lt⟩, double,
    Nat.mul_div_cancel _ Nat.two_pos]

theorem spacingBelow_of_ne (h : units ≠ 2 ^ units.log2 ∨ units.log2 ≤ 52) :
    spacingBelow units = spacing units := by
  refine if_neg fun ⟨eq, wide⟩ => ?_
  rcases h with ne | low
  · exact ne eq
  · rw [spacing, Nat.sub_eq_zero_of_le low] at wide
    exact Nat.lt_irrefl 1 wide

/-- A quotient below a smaller power of two is not rounded beyond it. -/
theorem two_pow_le_of_near (pos : 0 < den) (near : Near num den units) (low : 2 ^ n < units)
    (interval : 2 * (units * den) ≤ 2 * num + spacingBelow units * den → 2 ^ n * den ≤ num) :
    2 ^ n ≤ num / den := by
  rw [Nat.le_div_iff_mul_le pos]
  rcases near with rounded | ⟨lower, -⟩
  · by_contra gt
    have := nearestUnits_le pos (precise_two_pow n) (Nat.le_of_not_le gt)
    omega
  · exact interval lower

theorem log2_of_near_two_pow (pos : 0 < den) (wide : 52 < n) (near : Near num den (2 ^ n))
    (lt : num / den < 2 ^ n) : (num / den).log2 = n - 1 := by
  have double : 2 ^ n = 2 * 2 ^ (n - 1) := by
    rw [← Nat.pow_succ']
    congr 1
    omega
  have quarter : 2 ^ (n - 1 - 52) * den ≤ 2 ^ (n - 1) * den :=
    Nat.mul_le_mul_right den (Nat.pow_le_pow_right Nat.two_pos (by omega))
  have ge : 2 ^ (n - 1) ≤ num / den := by
    refine two_pow_le_of_near pos near (Nat.pow_lt_pow_right (by decide) (by omega))
      fun interval => ?_
    rw [spacingBelow_of_two_pow wide, double, Nat.mul_assoc] at interval
    omega
  rw [Nat.log2_eq_iff (Nat.ne_of_gt (Nat.lt_of_lt_of_le (Nat.two_pow_pos _) ge)),
    Nat.sub_add_cancel (by omega)]
  exact ⟨ge, lt⟩

theorem log2_of_near_of_lt (h : Precise units) (pos : 0 < den) (near : Near num den units)
    (lt : num / den < units) (above : 2 ^ units.log2 < units) :
    (num / den).log2 = units.log2 := by
  have room : 2 ^ units.log2 + spacing units ≤ units :=
    add_le_of_dvd_of_lt (Nat.pow_dvd_pow 2 (by omega)) h above
  have ge : 2 ^ units.log2 ≤ num / den := by
    refine two_pow_le_of_near pos near above fun interval => ?_
    have := Nat.mul_le_mul_right den room
    rw [spacingBelow_of_ne (.inl above.ne')] at interval
    rw [Nat.add_mul] at this
    omega
  rw [Nat.log2_eq_iff (Nat.ne_of_gt (Nat.lt_of_lt_of_le (Nat.two_pow_pos _) ge))]
  exact ⟨ge, Nat.lt_trans lt Nat.lt_log2_self⟩

theorem spacing_of_near_below (h : Precise units) (pos : 0 < den) (near : Near num den units)
    (below : num < units * den) : spacing (num / den) = spacingBelow units := by
  have lt : num / den < units := (Nat.div_lt_iff_lt_mul pos).mpr below
  have power := Nat.log2_self_le (Nat.ne_of_gt (Nat.zero_lt_of_lt lt))
  rcases Nat.lt_or_ge 52 units.log2 with high | low
  · rcases Nat.eq_or_lt_of_le power with eq | above
    · -- The grid is finer below a power of two.
      generalize units.log2 = n at *
      subst eq
      rw [spacingBelow_of_two_pow high, spacing, log2_of_near_two_pow pos high near lt]
    · rw [spacingBelow_of_ne (.inl above.ne')]
      exact spacing_congr (log2_of_near_of_lt h pos near lt above)
  · have := log2_le_log2 lt.le
    rw [spacingBelow_of_ne (.inr low), spacing, spacing, Nat.sub_eq_zero_of_le low,
      Nat.sub_eq_zero_of_le (by omega)]

theorem spacingBelow_dvd (units : ℕ) : spacingBelow units ∣ spacing units := by
  unfold spacingBelow
  dsimp only
  split_ifs with power
  · obtain ⟨n, eq⟩ : ∃ n, units.log2 - 52 = n + 1 := by
      refine Nat.exists_eq_succ_of_ne_zero fun zero => ?_
      rw [spacing, zero] at power
      exact Nat.lt_irrefl 1 power.2
    rw [spacing, eq, Nat.pow_succ, Nat.mul_div_cancel _ Nat.two_pos]
    exact Nat.dvd_mul_right _ _
  · exact Nat.dvd_refl _

theorem spacingBelow_pos (units : ℕ) : 0 < spacingBelow units :=
  Nat.pos_of_dvd_of_pos (spacingBelow_dvd units) (spacing_pos units)

/-- A power of two is even on either grid. -/
theorem div_spacingBelow_mod_two (units : ℕ) :
    units / spacingBelow units % 2 = units / spacing units % 2 := by
  by_cases power : units = 2 ^ units.log2 ∧ 52 < units.log2
  · obtain ⟨eq, wide⟩ := power
    generalize units.log2 = n at *
    subst eq
    rw [spacingBelow_of_two_pow wide, spacing, Nat.log2_two_pow,
      Nat.pow_div (by omega) Nat.two_pos, Nat.pow_div (by omega) Nat.two_pos,
      show n - (n - 1 - 52) = 53 by omega, show n - (n - 52) = 52 by omega]
  · rw [not_and_or, not_lt] at power
    rw [spacingBelow_of_ne power]

/-- A quotient is rounded to a magnitude between the midpoints to its neighbours. -/
theorem nearestUnits_eq_iff (h : Precise units) (pos : 0 < den) :
    nearestUnits num den = units ↔
      2 * (units * den) ≤ 2 * num + spacingBelow units * den ∧
      2 * num ≤ 2 * (units * den) + spacing units * den ∧
      (units / spacing units % 2 = 1 →
        2 * (units * den) < 2 * num + spacingBelow units * den ∧
          2 * num < 2 * (units * den) + spacing units * den) := by
  have room := Nat.mul_pos (spacing_pos units) pos
  have roomBelow := Nat.mul_pos (spacingBelow_pos units) pos
  rcases Nat.lt_or_ge num (units * den) with below | above
  · have grid (near : Near num den units) := spacing_of_near_below h pos near below
    have dvd := Nat.dvd_trans (spacingBelow_dvd units) h
    constructor
    · intro rounded
      have grid := grid (.inl rounded)
      rw [nearestUnits_eq_iff_of_dvd pos (grid ▸ dvd), grid, div_spacingBelow_mod_two] at rounded
      omega
    · rintro ⟨lower, upper, odd⟩
      have grid := grid (.inr ⟨lower, upper⟩)
      rw [nearestUnits_eq_iff_of_dvd pos (grid ▸ dvd), grid, div_spacingBelow_mod_two]
      omega
  · have grid (near : Near num den units) : spacing (num / den) = spacing units := by
      rw [spacing, log2_eq_of_near_above h pos near above, spacing]
    constructor
    · intro rounded
      have grid := grid (.inl rounded)
      rw [nearestUnits_eq_iff_of_dvd pos (grid ▸ h), grid] at rounded
      omega
    · rintro ⟨lower, upper, odd⟩
      have grid := grid (.inr ⟨lower, upper⟩)
      rw [nearestUnits_eq_iff_of_dvd pos (grid ▸ h), grid]
      omega

theorem exists_decimalUnits_eq : ∃ n, n = 1074 ∧ decimalUnits = 5 ^ n ∧ one = 2 ^ n :=
  ⟨1074, rfl, by decide +kernel⟩

theorem decimalUnits_pos : 0 < decimalUnits := by
  obtain ⟨n, -, eq, -⟩ := exists_decimalUnits_eq
  rw [eq]
  exact Nat.pow_pos (by decide)

theorem exists_one_mul_decimalUnits : ∃ n, n = 1074 ∧ one * decimalUnits = 10 ^ n := by
  obtain ⟨n, places, fives, unit⟩ := exists_decimalUnits_eq
  exact ⟨n, places, by rw [unit, fives, ← Nat.mul_pow]⟩

theorem spacingBelow_le (h : Precise units) : spacingBelow units ≤ 2 * units ∨ units = 0 := by
  by_cases zero : units = 0
  · exact .inr zero
  · have := Nat.le_of_dvd (Nat.pos_of_ne_zero zero) (Nat.dvd_trans (spacingBelow_dvd units) h)
    omega

/-- A decimal reads back exactly when rounding leads to the magnitude. -/
theorem readsBack_iff (h : Precise units) :
    readsBack units t ↔ nearestUnits t decimalUnits = units := by
  have sub := spacingBelow_le h
  rw [nearestUnits_eq_iff h decimalUnits_pos, readsBack, Nat.sub_mul, Nat.add_mul, Nat.mul_assoc]
  have : units = 0 → units * decimalUnits = 0 ∧ units / spacing units = 0 := by
    rintro rfl
    exact ⟨Nat.zero_mul _, Nat.zero_div _⟩
  have : spacingBelow units ≤ 2 * units →
      spacingBelow units * decimalUnits ≤ 2 * (units * decimalUnits) := by
    intro le
    rw [← Nat.mul_assoc]
    exact Nat.mul_le_mul_right _ le
  split_ifs with even
  · simp only [Bool.and_eq_true, decide_eq_true_eq]
    omega
  · simp only [Bool.and_eq_true, decide_eq_true_eq]
    omega

/-- What lies between two decimals that read back does so too. -/
theorem readsBack_between {low high : ℕ} (h : Precise units) (hlow : readsBack units low)
    (hhigh : readsBack units high) (le : low ≤ t) (ge : t ≤ high) : readsBack units t := by
  rw [readsBack_iff h] at *
  exact Nat.le_antisymm (hhigh ▸ nearestUnits_mono_left decimalUnits_pos ge)
    (hlow ▸ nearestUnits_mono_left decimalUnits_pos le)

theorem readsBack_value (h : Precise units) : readsBack units (units * decimalUnits) :=
  (readsBack_iff h).mpr (nearestUnits_of_precise decimalUnits_pos h)

/-! ## The search for the shortest -/

/-- A candidate reads back, and there is none only if neither multiple around the value does. -/
theorem candidate?_cases (units power : ℕ) :
    (∃ c, candidate? units power = some c ∧ readsBack units (c * 10 ^ power)) ∨
      candidate? units power = none ∧
        readsBack units (units * decimalUnits / 10 ^ power * 10 ^ power) = false ∧
        readsBack units ((units * decimalUnits / 10 ^ power + 1) * 10 ^ power) = false := by
  unfold candidate?
  dsimp only
  cases below : readsBack units (units * decimalUnits / 10 ^ power * 10 ^ power)
  all_goals cases above : readsBack units ((units * decimalUnits / 10 ^ power + 1) * 10 ^ power)
  · exact .inr ⟨rfl, rfl, rfl⟩
  · exact .inl ⟨_, rfl, above⟩
  · exact .inl ⟨_, rfl, below⟩
  · refine .inl ⟨_, rfl, ?_⟩
    split_ifs
    · exact below
    · exact above

theorem readsBack_of_candidate?_eq_some {c : ℕ} (h : candidate? units power = some c) :
    readsBack units (c * 10 ^ power) := by
  rcases candidate?_cases units power with ⟨c', eq, reads⟩ | ⟨eq, -⟩
  · rw [h] at eq
    exact Option.some.inj eq ▸ reads
  · rw [h] at eq
    contradiction

/-- If a multiple of a power of ten reads back then one of the two around the value does. -/
theorem not_readsBack_of_candidate?_eq_none (h : Precise units)
    (none : candidate? units power = none) (j : ℕ) : ¬ readsBack units (j * 10 ^ power) := by
  intro reads
  have value := readsBack_value h
  rcases candidate?_cases units power with ⟨c, eq, -⟩ | ⟨-, below, above⟩
  · rw [none] at eq
    contradiction
  have lower : units * decimalUnits / 10 ^ power * 10 ^ power ≤ units * decimalUnits :=
    Nat.div_mul_le_self _ _
  have upper : units * decimalUnits < (units * decimalUnits / 10 ^ power + 1) * 10 ^ power := by
    rw [Nat.mul_comm _ (10 ^ power)]
    exact Nat.lt_mul_div_succ _ (Nat.pow_pos (Nat.succ_pos 9))
  rcases Nat.lt_or_ge (units * decimalUnits / 10 ^ power) j with gt | le
  · have := readsBack_between h value reads upper.le (Nat.mul_le_mul_right _ gt)
    exact Bool.false_ne_true (above.symm.trans this)
  · have := readsBack_between h reads value (Nat.mul_le_mul_right _ le) lower
    exact Bool.false_ne_true (below.symm.trans this)

/-- A decimal of `c` times a power of ten, counted in units of `10⁻¹⁰⁷⁴`, that reads back, while
no multiple of a higher power does. -/
structure IsShortest (units : ℕ) (d : Decimal) (c power : ℕ) : Prop where
  coefficient : d.coefficient = c * 10 ^ (power - 1074)
  places : d.places = 1074 - power
  readsBack : readsBack units (c * 10 ^ power)
  coarsest : ∀ n, power < n → ∀ j, 0 < j → ¬ Magnitude.readsBack units (j * 10 ^ n)

theorem exists_isShortest_shortestFrom (h : Precise units) (start : ℕ)
    (above : ∀ n, start < n → ∀ j, 0 < j → ¬ readsBack units (j * 10 ^ n)) :
    ∃ c power, IsShortest units (shortestFrom units start) c power := by
  induction start with
  | zero =>
    refine ⟨units * decimalUnits, 0, ?_, rfl, ?_, above⟩
    · exact (Nat.mul_one _).symm
    · simpa using readsBack_value h
  | succ start ih =>
    rw [shortestFrom]
    cases candidate : candidate? units (start + 1) with
    | none =>
      refine ih fun n lt j pos => ?_
      rcases Nat.lt_or_eq_of_le lt with lt | rfl
      · exact above n lt j pos
      · exact not_readsBack_of_candidate?_eq_none h candidate j
    | some c =>
      refine ⟨c, start + 1, ?_, ?_, readsBack_of_candidate?_eq_some candidate, above⟩
      · dsimp only
        split_ifs with low
        · rw [Nat.sub_eq_zero_of_le low, Nat.pow_zero, Nat.mul_one]
        · rfl
      · dsimp only
        split_ifs with low
        · rfl
        · exact (Nat.sub_eq_zero_of_le (by omega)).symm

theorem lt_pow_floorLogTen (bits : ℕ) (lt : n < 10 ^ (2 ^ bits : ℕ)) :
    n < 10 ^ (floorLogTen bits n + 1) := by
  induction bits generalizing n with
  | zero => exact lt
  | succ bits ih =>
    rw [floorLogTen]
    split_ifs with small
    · exact ih small
    · have pos : 0 < 10 ^ (2 ^ bits : ℕ) := Nat.pow_pos (by decide)
      have split : 10 ^ (2 ^ (bits + 1) : ℕ) = 10 ^ (2 ^ bits : ℕ) * 10 ^ (2 ^ bits : ℕ) := by
        rw [← Nat.pow_add, Nat.pow_succ, Nat.mul_two]
      have := ih (Nat.div_lt_of_lt_mul (split ▸ lt))
      rw [Nat.div_lt_iff_lt_mul pos, ← Nat.pow_add] at this
      rwa [Nat.add_assoc, Nat.add_comm]

/-- A decimal that reads back is less than twice the value. -/
theorem lt_of_readsBack (h : Precise units) (ne : units ≠ 0) (reads : readsBack units t) :
    t < 2 * (units * decimalUnits) := by
  obtain ⟨-, upper, -⟩ := (nearestUnits_eq_iff h decimalUnits_pos).mp ((readsBack_iff h).mp reads)
  have le := Nat.mul_le_mul_right decimalUnits (Nat.le_of_dvd (Nat.pos_of_ne_zero ne) h)
  have pos := Nat.mul_pos (Nat.pos_of_ne_zero ne) decimalUnits_pos
  omega

theorem lt_of_representable (h : Representable units) :
    units * decimalUnits < 10 ^ (2 ^ (11 : ℕ) : ℕ) := by
  obtain ⟨n, places, scale⟩ := exists_one_mul_decimalUnits
  obtain ⟨m, top, digits, room⟩ : ∃ m top, 358 ≤ m ∧ top = 2 ^ (11 : ℕ) ∧ m + 1074 ≤ top :=
    ⟨358, _, le_rfl, rfl, by decide⟩
  rw [← room.1]
  refine Nat.lt_of_lt_of_le (Nat.mul_lt_mul_of_pos_right h.2 decimalUnits_pos) ?_
  calc unitLimit * decimalUnits ≤ 10 ^ m * one * decimalUnits :=
        Nat.mul_le_mul_right _ (le_ten_pow digits).2
    _ = 10 ^ (m + n) := by rw [Nat.mul_assoc, scale, ← Nat.pow_add]
    _ ≤ 10 ^ top := Nat.pow_le_pow_right (by decide) (places ▸ room.2)

theorem decimalUnits_lt_pow (lt : 1074 < n) : decimalUnits < 10 ^ n := by
  have larger (k : ℕ) (lt : k < n) : 5 ^ k < 10 ^ n :=
    calc 5 ^ k ≤ 10 ^ k := Nat.pow_le_pow_left (by decide) k
      _ < 10 ^ n := Nat.pow_lt_pow_right (by decide) lt
  unfold decimalUnits
  exact larger 1074 lt

theorem isShortest_zero (high : 1074 ≤ power) : IsShortest 0 ⟨0, 0⟩ 0 power where
  coefficient := (Nat.zero_mul _).symm
  places := (Nat.sub_eq_zero_of_le high).symm
  readsBack := by
    have value := @readsBack_value 0 (Nat.dvd_zero _)
    rwa [Nat.zero_mul] at value ⊢
  coarsest n lt j pos reads := by
    have precise : Precise 0 := Nat.dvd_zero _
    obtain ⟨-, upper, -⟩ :=
      (nearestUnits_eq_iff precise decimalUnits_pos).mp ((readsBack_iff precise).mp reads)
    have large : decimalUnits < j * 10 ^ n :=
      Nat.lt_of_lt_of_le (decimalUnits_lt_pow (by omega)) (Nat.le_mul_of_pos_left _ pos)
    rw [show spacing 0 = 1 from rfl, Nat.one_mul, Nat.zero_mul] at upper
    omega

/-- A shortest decimal is found for every magnitude. -/
theorem exists_isShortest (h : Representable units) :
    ∃ c power, IsShortest units (shortest units) c power := by
  by_cases zero : units = 0
  · subst zero
    exact ⟨0, 1074, isShortest_zero le_rfl⟩
  · rw [shortest, if_neg zero]
    apply exists_isShortest_shortestFrom h.1
    intro n lt j pos reads
    have small := lt_pow_floorLogTen 11 (lt_of_representable h)
    have near := lt_of_readsBack h.1 zero reads
    have large : 10 * 10 ^ (floorLogTen 11 (units * decimalUnits) + 1) ≤ j * 10 ^ n :=
      calc 10 * 10 ^ (floorLogTen 11 (units * decimalUnits) + 1)
          = 10 ^ (floorLogTen 11 (units * decimalUnits) + 2) := (Nat.pow_succ').symm
        _ ≤ 10 ^ n := Nat.pow_le_pow_right (by decide) lt
        _ ≤ j * 10 ^ n := Nat.le_mul_of_pos_left _ pos
    omega

theorem IsShortest.value_eq {d : Decimal} {c : ℕ} (h : IsShortest units d c power) :
    d.coefficient * one * decimalUnits = c * 10 ^ power * 10 ^ d.places := by
  obtain ⟨n, eq, scale⟩ := exists_one_mul_decimalUnits
  have exponents : power - n + n = power + (n - power) := by omega
  rw [Nat.mul_assoc, scale, h.coefficient, h.places, ← eq, Nat.mul_assoc, Nat.mul_assoc,
    ← Nat.pow_add, ← Nat.pow_add, exponents]

/-- The shortest decimal reads back. -/
theorem nearestUnits_shortest (h : Representable units) :
    nearestUnits ((shortest units).coefficient * one) (10 ^ (shortest units).places) = units := by
  obtain ⟨c, power, short⟩ := exists_isShortest h
  have reads := (readsBack_iff h.1).mp short.readsBack
  rw [← reads]
  exact nearestUnits_congr (Nat.pow_pos (by decide)) decimalUnits_pos (reads.symm ▸ short.value_eq)

/-! ## The integer part -/

theorem isWhole_iff {h : Representable units} : (finite units h).isWhole ↔ one ∣ units := by
  rw [isWhole, beq_iff_eq, Nat.dvd_iff_mod_eq_zero]

/-- The whole magnitudes are those without a fraction in their shortest decimal. -/
theorem places_shortest_eq_zero_iff (h : Representable units) :
    (shortest units).places = 0 ↔ one ∣ units := by
  constructor
  · intro zero
    have nearest := nearestUnits_shortest h
    rw [zero, Nat.pow_zero] at nearest
    rcases Nat.lt_or_ge (2 ^ (53 : ℕ)) (shortest units).coefficient with large | small
    · apply one_dvd_of_large h.1
      have := Nat.mul_le_mul_right one large.le
      have := le_nearestUnits Nat.one_pos (precise_mul_one le_rfl) ((Nat.mul_one _).trans_le this)
      omega
    · have := nearestUnits_of_precise Nat.one_pos (precise_mul_one small)
      rw [Nat.mul_one, nearest] at this
      exact ⟨_, this.trans (Nat.mul_comm _ _)⟩
  · rintro ⟨w, whole⟩
    obtain ⟨c, power, short⟩ := exists_isShortest h
    obtain ⟨n, eq, scale⟩ := exists_one_mul_decimalUnits
    by_contra ne
    have lt : power < n := by
      rw [short.places] at ne
      omega
    have pos : 0 < w := by
      refine Nat.pos_of_ne_zero ?_
      rintro rfl
      rw [whole, Nat.mul_zero, shortest, if_pos rfl] at ne
      exact ne rfl
    refine short.coarsest n lt w pos ?_
    rw [← scale, ← Nat.mul_assoc, Nat.mul_comm w, ← whole]
    exact readsBack_value h.1

/-- The shortest decimal reaches a power of ten when the magnitude does. -/
theorem ten_pow_le_integerPart_iff (h : Representable units) (le : m ≤ 22) :
    10 ^ m ≤ (shortest units).integerPart ↔ 10 ^ m * one ≤ units := by
  have precise := (representable_ten_pow le).1
  have nearest := nearestUnits_shortest h
  have places : 0 < 10 ^ (shortest units).places := Nat.pow_pos (by decide)
  rw [Decimal.integerPart, Nat.le_div_iff_mul_le places]
  constructor
  · intro reached
    have := Nat.mul_le_mul_right one reached
    rw [Nat.mul_right_comm] at this
    exact nearest ▸ le_nearestUnits places precise this
  · intro reached
    by_contra lt
    have le : (shortest units).coefficient * one ≤ 10 ^ m * one * 10 ^ (shortest units).places := by
      rw [Nat.mul_right_comm]
      exact Nat.mul_le_mul_right one (Nat.le_of_not_le lt)
    have exact : units = 10 ^ m * one :=
      Nat.le_antisymm (nearest ▸ nearestUnits_le places precise le) reached
    obtain ⟨c, power, short⟩ := exists_isShortest h
    obtain ⟨n, eq, scale⟩ := exists_one_mul_decimalUnits
    rcases Nat.lt_or_ge power (n + m) with fine | coarse
    · refine short.coarsest (n + m) fine 1 Nat.one_pos ?_
      rw [Nat.one_mul, Nat.add_comm, Nat.pow_add, ← scale, ← Nat.mul_assoc, ← exact]
      exact readsBack_value h.1
    · -- A multiple of so high a power is zero or reaches it.
      have zero : c = 0 := by
        by_contra ne
        refine lt ?_
        rw [short.places, short.coefficient, Nat.sub_eq_zero_of_le (by omega), Nat.pow_zero,
          Nat.mul_one]
        exact Nat.le_trans (Nat.pow_le_pow_right (by decide) (by omega))
          (Nat.le_mul_of_pos_left _ (Nat.pos_of_ne_zero ne))
      have reads := (readsBack_iff h.1).mp short.readsBack
      have none : nearestUnits (0 * decimalUnits) decimalUnits = 0 :=
        nearestUnits_of_precise decimalUnits_pos (Nat.dvd_zero _)
      rw [zero, Nat.zero_mul, ← Nat.zero_mul decimalUnits, none] at reads
      have := Nat.mul_pos (Nat.pow_pos (n := m) (show 0 < 10 by decide)) one_pos
      omega

end Magnitude

end DecimalPattern
