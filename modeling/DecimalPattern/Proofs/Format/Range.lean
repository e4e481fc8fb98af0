import DecimalPattern.Proofs.Format.Mantissa
import DecimalPattern.Proofs.Layout.DigitBounds

/-! # Arithmetic in 32 bits

A strategy that has a result for a magnitude has the result of unbounded arithmetic, whatever the
sign is. It has one for counts of digits that stay a thousand below the limit of 32-bit numbers,
and a pattern of less than `2 ^ 30` characters has no others.
-/

namespace DecimalPattern

-- Powers of natural numbers are the built-in ones, also beside the monoids of algebra.
attribute [local instance (2000)] instPowNat

variable {p : String} {F : NumberFormat} {layout : Layout} {x : Magnitude} {r : Binary64}
  {n : Numeral} {s : Scientific} {units most least : ℕ} {bound : Option ℕ} {a : Bool} {pad : Char}
  {e m power step : ℤ}

/-! ## Words -/

theorem word?_eq_some_iff : word? e = some m ↔
    (-2 ^ (31 : ℕ) ≤ e ∧ e < 2 ^ (31 : ℕ)) ∧ e = m := by
  rw [word?, Option.ite_none_right_eq_some, Option.some_inj]

theorem word?_eq_some (lower : -2 ^ (31 : ℕ) ≤ m) (upper : m < 2 ^ (31 : ℕ)) :
    word? m = some m := if_pos ⟨lower, upper⟩

theorem quotient?_eq_some_iff : quotient? e m = some power ↔
    m ≠ 0 ∧ (-2 ^ (31 : ℕ) ≤ e / m ∧ e / m < 2 ^ (31 : ℕ)) ∧ e / m = power := by
  rw [quotient?, Option.ite_none_left_eq_some, word?_eq_some_iff]

theorem toInt_ofNat_eq (count : ℕ) : (Int32.ofNat count).toInt = placesOfCount count :=
  Int32.toInt_ofNat'

theorem ofNat_eq_minValue_iff (count : ℕ) :
    Int32.ofNat count = Int32.minValue ↔ placesOfCount count = -2 ^ (31 : ℕ) := by
  rw [← Int32.toInt_inj, toInt_ofNat_eq, Int32.toInt_minValue]

namespace Binary64

/-! ## Values -/

theorem floor_signed (x : Magnitude) : (signed false x).floor = signed false x.floor := by
  cases x with
  | infinite => rfl
  | finite units h => simp [floor, Magnitude.floor]

theorem leadingExponent_signed (x : Magnitude) :
    (signed false x).leadingExponent = x.leadingExponent := by
  cases x with
  | infinite => rfl
  | finite units h => simp [leadingExponent, Magnitude.leadingExponent, isZero, Magnitude.isZero, ofLog]

theorem leadingPlace_signed (x : Magnitude) :
    (signed false x).leadingPlace = x.leadingPlace := by
  cases x with
  | infinite => rfl
  | finite units h => simp [leadingPlace, Magnitude.leadingPlace, isZero, Magnitude.isZero, ofLog]

end Binary64

/-- The place of the last significant digit has an absolute value that is a 32-bit number. -/
def Magnitude.PlaceFits (x : Magnitude) (most : ℕ) : Prop :=
  |placesOfCount most - x.leadingPlace| < 2 ^ (31 : ℕ)

namespace Binary64

theorem roundSignificant?_eq_some_iff : (signed false x).roundSignificant? bound = some r ↔
    (∀ most ∈ bound, x.PlaceFits most) ∧ signed false (x.roundSignificant bound) = r := by
  cases bound with
  | none => simp [roundSignificant?, Magnitude.roundSignificant]
  | some most =>
    simp only [roundSignificant?, leadingPlace_signed, Option.bind_eq_bind,
      Option.bind_eq_some_iff, word?_eq_some_iff, Magnitude.PlaceFits, Option.mem_some_iff,
      forall_eq', Magnitude.roundSignificant]
    generalize placesOfCount most - x.leadingPlace = places
    have word (range : -2 ^ (31 : ℕ) ≤ places ∧ places < 2 ^ (31 : ℕ)) :
        (Int32.ofInt places).toInt = places := Int32.toInt_ofInt_of_le range.1 range.2
    have least (range : -2 ^ (31 : ℕ) ≤ places ∧ places < 2 ^ (31 : ℕ)) :
        Int32.ofInt places = Int32.minValue ↔ places = -2 ^ (31 : ℕ) := by
      rw [← Int32.toInt_inj, word range, Int32.toInt_minValue]
    constructor
    · rintro ⟨_, ⟨range, rfl⟩, rounded⟩
      rw [roundHalfEven?] at rounded
      split_ifs at rounded with refused
      rw [least range] at refused
      refine ⟨abs_lt.mpr (by omega), ?_⟩
      rw [← Option.some.inj rounded, word range]
      rfl
    · rintro ⟨range, rfl⟩
      obtain ⟨lower, upper⟩ := abs_lt.mp range
      have range : -2 ^ (31 : ℕ) ≤ places ∧ places < 2 ^ (31 : ℕ) := ⟨lower.le, upper⟩
      refine ⟨places, ⟨range, rfl⟩, ?_⟩
      rw [roundHalfEven?, if_neg (by rw [least range]; exact lower.ne'), word range]
      rfl

end Binary64

/-- The three rules for the width come to one count. -/
theorem significantWidth_signed (x : Magnitude) :
    significantWidth (.signed false x) = x.numeral.significantCount := by
  rw [significantWidth, Binary64.floor_signed]
  change (if x.isZero then 1
    else if x.floor.isZero then (x.numeral.fraction.dropWhile (· == '0')).length
    else x.floor.numeral.integer.length + x.numeral.fraction.length) = _
  rw [← x.integer_numeral_floor]
  cases x with
  | infinite => decide
  | finite units h =>
    have count (ne : units ≠ 0) : (Magnitude.finite units h).numeral.significantCount =
        (Magnitude.finite units h).numeral.leading.length := by
      have shown := Decimal.leading_ne_nil (Magnitude.coefficient_shortest_pos h ne)
      rw [← Magnitude.numeral_finite h] at shown
      exact max_eq_right (List.length_pos_iff.mpr shown)
    obtain ⟨n, -, integer, reads, exact⟩ := Magnitude.exists_numeral_floor h
    split_ifs with zero whole
    · obtain rfl : units = 0 := eq_of_beq zero
      rw [Magnitude.numeral_finite]
      decide
    · have small : units / Magnitude.one = 0 :=
        Option.some.inj ((Magnitude.isZero_floor_iff _).mp whole)
      obtain rfl : n = 0 := (exact (by rw [small]; decide)).trans small
      have lone : (Magnitude.finite units h).numeral.integer = ['0'] := integer
      rw [count fun eq => zero (beq_iff_eq.mpr eq), Numeral.leading, lone]
      rfl
    · have pos : 0 < n := by
        refine Nat.pos_of_ne_zero ?_
        rintro rfl
        rw [← reads, Magnitude.ofNat, Nat.zero_mul] at whole
        exact whole Magnitude.isZero_zero
      obtain ⟨c, ds, eq⟩ := List.exists_cons_of_ne_nil (digits_ne_nil n)
      have first : c ≠ '0' := fun zero => head?_digits_ne pos (by rw [eq, zero]; rfl)
      rw [count fun eq => zero (beq_iff_eq.mpr eq), Numeral.leading, integer, eq, List.cons_append,
        List.dropWhile_cons_of_neg (by simpa using first), ← List.cons_append, List.length_append]

theorem splitSignificant?_eq_some_iff :
    splitSignificant? (.signed a x) least bound pad = some n ↔
      (∀ most ∈ bound, x.PlaceFits most) ∧ significantNumeral x least bound pad = n := by
  have numeral (m : Magnitude) : paddedNumeral m least pad =
      ⟨(Binary64.signed false m).floor.numeral.integer, m.numeral.fraction ++
        List.replicate (least - significantWidth (.signed false m)) pad⟩ := by
    rw [Binary64.floor_signed, significantWidth_signed]
    exact congrArg (Numeral.mk · _) m.integer_numeral_floor
  simp only [splitSignificant?, Binary64.abs, Option.bind_eq_bind, Option.bind_eq_some_iff,
    Binary64.roundSignificant?_eq_some_iff, Option.pure_def, Option.some_inj, significantNumeral,
    numeral]
  constructor
  · rintro ⟨_, ⟨fits, rfl⟩, rfl⟩
    exact ⟨fits, rfl⟩
  · rintro ⟨fits, rfl⟩
    exact ⟨_, ⟨fits, rfl⟩, rfl⟩

theorem Binary64.roundHalfEven?_ofNat (x : Magnitude) (count : ℕ) :
    (signed false x).roundHalfEven? (Int32.ofNat count) =
      if placesOfCount count = -2 ^ (31 : ℕ) then none
      else some (signed false (x.roundHalfEven (placesOfCount count))) := by
  simp only [roundHalfEven?, ofNat_eq_minValue_iff, toInt_ofNat_eq, roundHalfEven]

theorem Binary64.roundHalfEven?_ofNat_of_lt (x : Magnitude) {count : ℕ}
    (small : count < 2 ^ (31 : ℕ)) : (signed false x).roundHalfEven? (Int32.ofNat count) =
      some (signed false (x.roundHalfEven count)) := by
  have places := placesOfCount_of_lt small
  rw [roundHalfEven?_ofNat, if_neg (by omega), places]

namespace Layout

/-- Both parts are taken from the rounded magnitude. -/
theorem formatFixed?_of_rounded {r : Magnitude} (rounded :
    (Binary64.signed false x).roundHalfEven? (Int32.ofNat layout.fractionMax) =
      some (.signed false r)) :
    layout.formatFixed? (.signed a x) =
      some ⟨layout.fixedInteger r, layout.fixedFraction x r⟩ := by
  rw [formatFixed?, Binary64.abs, rounded]
  simp [Binary64.floor_signed, fixedInteger, fixedFraction]

theorem formatFixed?_eq_some_iff : layout.formatFixed? (.signed a x) = some n ↔
    placesOfCount layout.fractionMax ≠ -2 ^ (31 : ℕ) ∧ layout.fixedNumeral x = n := by
  have rounding := Binary64.roundHalfEven?_ofNat x layout.fractionMax
  split_ifs at rounding with least
  · rw [formatFixed?, Binary64.abs, rounding]
    simp [least]
  · rw [formatFixed?_of_rounded rounding, Option.some_inj]
    exact (and_iff_right least).symm

end Layout

namespace Magnitude

/-! ## The loop of the shift -/

variable {move : ℕ → Magnitude → Magnitude}

/-- Moves of 300 places and a last one of what is left. -/
def moveBy (move : ℕ → Magnitude → Magnitude) (n : ℕ) (x : Magnitude) : Magnitude :=
  let moved := Nat.repeat (move 300) (n / 300) x
  if n % 300 = 0 then moved else move (n % 300) moved

theorem shift_eq (x : Magnitude) (power : ℤ) : x.shift power =
    moveBy (fun n y => if power < 0 then y / tenPow n else y * tenPow n) power.natAbs x := rfl

theorem repeat_succ (f : Magnitude → Magnitude) (n : ℕ) (x : Magnitude) :
    Nat.repeat f (n + 1) x = Nat.repeat f n (f x) := by
  induction n with
  | zero => rfl
  | succ n ih => rw [Nat.repeat, ih, Nat.repeat]

theorem moveBy_add (move : ℕ → Magnitude → Magnitude) (n : ℕ) (x : Magnitude) :
    moveBy move (n + 300) x = moveBy move n (move 300 x) := by
  rw [moveBy, Nat.add_div_right n (by decide), Nat.add_mod_right, repeat_succ, moveBy]

/-- The first move is one of the loop. -/
theorem moveBy_step {n : ℕ} (pos : 0 < n) (x : Magnitude) :
    moveBy move n x = moveBy move (n - min 300 n) (move (min 300 n) x) := by
  rcases Nat.lt_or_ge n 300 with few | many
  · rw [min_eq_right few.le, Nat.sub_self, moveBy, Nat.div_eq_of_lt few, Nat.mod_eq_of_lt few,
      if_neg pos.ne']
    rfl
  · rw [min_eq_left many, ← moveBy_add, Nat.sub_add_cancel many]

theorem shift_step (ne : power ≠ 0) (x : Magnitude) : x.shift power =
    (if power < 0 then x / tenPow (min 300 power.natAbs)
      else x * tenPow (min 300 power.natAbs)).shift (power - Binary64.shiftStep power) := by
  have left : (power - Binary64.shiftStep power).natAbs =
      power.natAbs - min 300 power.natAbs := by
    rw [Binary64.shiftStep]
    omega
  rw [shift_eq, moveBy_step (Int.natAbs_pos.mpr ne), shift_eq, left]
  -- The direction stays the same while there are places left.
  by_cases last : power.natAbs ≤ 300
  · rw [min_eq_right last, Nat.sub_self]
    rfl
  · have same : (power - Binary64.shiftStep power < 0) = (power < 0) := by
      rw [Binary64.shiftStep, eq_iff_iff]
      omega
    simp only [same]

/-- A power of ten that the shift takes is finite. -/
theorem exists_tenPow_finite {n : ℕ} (le : n ≤ 300) :
    ∃ f hf, tenPow n = finite f hf ∧ 0 < f := by
  obtain ⟨f, hf, eq, -⟩ := isNear_tenPow le
  exact ⟨f, hf, eq, Nat.lt_of_lt_of_le one_pos (atLeastOne_tenPow n f hf eq)⟩

end Magnitude

namespace Binary64

theorem move?_shiftStep (x : Magnitude) (power : ℤ) :
    (signed false x).move? (shiftStep power) = some (signed false
      (if power < 0 then x / Magnitude.tenPow (min 300 power.natAbs)
        else x * Magnitude.tenPow (min 300 power.natAbs))) := by
  have range : -300 ≤ shiftStep power ∧ shiftStep power ≤ 300 := by
    rw [shiftStep]
    omega
  have sign : shiftStep power < 0 ↔ power < 0 := by
    rw [shiftStep]
    omega
  obtain ⟨f, hf, factor, pos⟩ :=
    Magnitude.exists_tenPow_finite (min_le_left 300 power.natAbs)
  rw [move?, word?_eq_some (by omega) (by omega)]
  simp only [sign]
  split_ifs with negative
  · rw [Option.map_some, show (-shiftStep power).toNat = min 300 power.natAbs by
      rw [shiftStep]; omega, factor, div_factor pos]
  · rw [show (shiftStep power).toNat = min 300 power.natAbs by rw [shiftStep]; omega, factor,
      mul_factor pos]

/-- The steps of the loop do not leave the range that they start in. -/
theorem shift?_eq (x : Magnitude) (lower : -2 ^ (31 : ℕ) ≤ power) (upper : power < 2 ^ (31 : ℕ)) :
    (signed false x).shift? power = some (signed false (x.shift power)) := by
  induction places : power.natAbs using Nat.strong_induction_on generalizing x power with
  | _ n ih =>
    rw [shift?]
    split_ifs with zero
    · rw [zero]
      rfl
    · have smaller : (power - shiftStep power).natAbs < n ∧
          -2 ^ (31 : ℕ) ≤ power - shiftStep power ∧ power - shiftStep power < 2 ^ (31 : ℕ) := by
        rw [shiftStep]
        omega
      obtain ⟨lt, lower, upper⟩ := smaller
      rw [move?_shiftStep, word?_eq_some lower upper, Magnitude.shift_step zero]
      exact ih _ lt _ lower upper rfl

end Binary64

namespace Layout

theorem exponentStep_of_agree (agree : layout.integerMax = some layout.integerMin) :
    layout.exponentStep = 1 := by
  rw [exponentStep, agree]
  exact if_pos (.inl rfl)

theorem exponentStep_of_pos (ranged : layout.integerMax ≠ some layout.integerMin)
    (bound : layout.integerMax = some most) (pos : 0 < most) :
    layout.exponentStep = placesOfCount most := by
  have ne : most ≠ layout.integerMin := by
    rintro rfl
    exact ranged bound
  rw [exponentStep, bound]
  exact if_neg (by omega)

/-- Other layouts allow every exponent. -/
theorem exponentStep_of_not_pos (h : layout.integerMax.filter (0 < ·) = none) :
    layout.exponentStep = 1 := by
  rw [exponentStep]
  split
  next most bound =>
    rw [bound, Option.filter_some] at h
    split_ifs at h with pos
    exact if_pos (.inr (by simpa using pos))
  next => rfl

theorem firstExponent?_eq_some (h : layout.firstExponent? x.leadingExponent = some (e, step)) :
    layout.firstExponent x = e ∧ layout.exponentStep = step := by
  rw [firstExponent?] at h
  rw [firstExponent]
  split_ifs at h ⊢ with agree
  · obtain ⟨digits, word, h⟩ := Option.bind_eq_some_iff.mp h
    obtain ⟨exponent, word', h⟩ := Option.bind_eq_some_iff.mp h
    obtain ⟨-, rfl⟩ := word?_eq_some_iff.mp word
    obtain ⟨-, rfl⟩ := word?_eq_some_iff.mp word'
    obtain ⟨rfl, rfl⟩ := Prod.mk.inj (Option.some.inj h)
    exact ⟨rfl, exponentStep_of_agree agree⟩
  · cases bound : layout.integerMax.filter (0 < ·) with
    | none =>
      rw [bound] at h
      obtain ⟨rfl, rfl⟩ := Prod.mk.inj (Option.some.inj h)
      rw [exponentStep_of_not_pos bound, Int.ediv_one, Int.mul_one]
      exact ⟨rfl, rfl⟩
    | some most =>
      rw [bound] at h
      obtain ⟨quotient, divided, h⟩ := Option.bind_eq_some_iff.mp h
      obtain ⟨exponent, word, h⟩ := Option.bind_eq_some_iff.mp h
      obtain ⟨-, rfl⟩ := word?_eq_some_iff.mp word
      obtain ⟨rfl, rfl⟩ := Prod.mk.inj (Option.some.inj h)
      obtain ⟨given, pos⟩ := Option.filter_eq_some_iff.mp bound
      rw [exponentStep_of_pos agree given (by simpa using pos),
        (quotient?_eq_some_iff.mp divided).2.2]
      exact ⟨rfl, rfl⟩

theorem mantissa?_eq_some (h : layout.mantissa? (.signed false x) e = some n) :
    layout.mantissaAt x e = n := by
  obtain ⟨places, word, h⟩ := Option.bind_eq_some_iff.mp h
  obtain ⟨range, rfl⟩ := word?_eq_some_iff.mp word
  rw [Binary64.shift?_eq x range.1 range.2] at h
  exact (splitSignificant?_eq_some_iff.mp h).2

theorem scientific?_eq_some (h : layout.scientific? (.signed a x) = some s) :
    layout.scientific x = s := by
  rw [scientific?, Binary64.abs, Binary64.leadingExponent_signed] at h
  obtain ⟨⟨first, step⟩, start, h⟩ := Option.bind_eq_some_iff.mp h
  obtain ⟨mantissa, shown, h⟩ := Option.bind_eq_some_iff.mp h
  obtain ⟨rfl, rfl⟩ := firstExponent?_eq_some start
  obtain rfl := mantissa?_eq_some shown
  rw [scientific]
  dsimp only at h ⊢
  split_ifs at h ⊢
  · obtain ⟨next, word, h⟩ := Option.bind_eq_some_iff.mp h
    obtain ⟨mantissa, shown, h⟩ := Option.bind_eq_some_iff.mp h
    obtain ⟨-, rfl⟩ := word?_eq_some_iff.mp word
    obtain rfl := mantissa?_eq_some shown
    exact Option.some.inj h
  · exact Option.some.inj h

end Layout

/-! ## Ranges -/

namespace Magnitude

theorem ceilLog_eq_or (units : ℕ) :
    ceilLog units = floorLog units ∨ ceilLog units = floorLog units + 1 := by
  have unit : (0 : ℤ) < one := by exact_mod_cast one_pos
  have lower := Int.ediv_mul_le (log10 units) unit.ne'
  have upper := Int.lt_ediv_add_one_mul_self (log10 units) unit
  have least : -(log10 units / one + 1) ≤ -log10 units / one := by
    rw [Int.le_ediv_iff_mul_le unit, Int.neg_mul]
    omega
  have most : -log10 units / one < -(log10 units / one) + 1 := by
    rw [Int.ediv_lt_iff_lt_mul unit, Int.add_mul, Int.neg_mul]
    omega
  rw [ceilLog, floorLog]
  omega

theorem leadingExponent_range (h : Representable units) :
    -360 ≤ (finite units h).leadingExponent ∧ (finite units h).leadingExponent ≤ 360 := by
  rw [leadingExponent]
  split_ifs with zero
  · omega
  · exact floorLog_range h zero

theorem leadingPlace_range (x : Magnitude) :
    -360 ≤ x.leadingPlace ∧ x.leadingPlace < 2 ^ (31 : ℕ) := by
  cases x with
  | infinite => exact ⟨by decide, by decide⟩
  | finite units h =>
    rw [leadingPlace]
    split_ifs with zero
    · omega
    · have range := floorLog_range h zero
      have next := ceilLog_eq_or units
      omega

/-- A count that is not next to the limit leaves room for the places. -/
theorem placeFits_of_lt (x : Magnitude) (small : most < 2 ^ (31 : ℕ) - 2 ^ (10 : ℕ)) :
    x.PlaceFits most := by
  obtain ⟨lower, upper⟩ := x.leadingPlace_range
  rw [PlaceFits, placesOfCount_of_lt (by omega), abs_lt]
  omega

end Magnitude

theorem Binary64.isSome_roundSignificant?_of_lt (x : Magnitude)
    (small : ∀ most ∈ bound, most < 2 ^ (31 : ℕ) - 2 ^ (10 : ℕ)) :
    ((signed false x).roundSignificant? bound).isSome :=
  Option.isSome_of_eq_some (roundSignificant?_eq_some_iff.mpr
    ⟨fun most mem => x.placeFits_of_lt (small most mem), rfl⟩)

namespace Layout

theorem exponentStep_eq (bound : layout.integerMax = some most) (small : most < 2 ^ (31 : ℕ)) :
    layout.exponentStep = if most = layout.integerMin ∨ most = 0 then 1 else (most : ℤ) := by
  rw [exponentStep, bound]
  dsimp only
  rw [placesOfCount_of_lt small]

theorem exponentStep_range (bound : layout.integerMax = some most) (small : most < 2 ^ (31 : ℕ)) :
    1 ≤ layout.exponentStep ∧ layout.exponentStep ≤ max 1 most := by
  rw [exponentStep_eq bound small]
  split_ifs with single <;> omega

/-- Before rounding the exponent is not above that of the leading digit by more than one, and not
below by the digits. -/
theorem firstExponent_range (bound : layout.integerMax = some most)
    (small : most < 2 ^ (31 : ℕ)) (x : Magnitude) :
    x.leadingExponent - max 1 most < layout.firstExponent x ∧
      layout.firstExponent x ≤ x.leadingExponent + 1 := by
  rw [firstExponent, bound]
  split_ifs with fixed
  · obtain rfl := Option.some.inj fixed
    rw [placesOfCount_of_lt small]
    omega
  · obtain ⟨pos, le⟩ := exponentStep_range bound small
    have lower := Int.lt_ediv_add_one_mul_self x.leadingExponent
      (show 0 < layout.exponentStep by omega)
    have upper := Int.ediv_mul_le x.leadingExponent (show layout.exponentStep ≠ 0 by omega)
    rw [Int.add_mul, Int.one_mul] at lower
    omega

theorem ediv_range {a b k : ℤ} (pos : 1 ≤ b) (lower : -k ≤ a) (upper : a ≤ k) :
    -k ≤ a / b ∧ a / b ≤ k := by
  constructor
  · rw [Int.le_ediv_iff_mul_le (by omega)]
    nlinarith
  · rw [Int.ediv_le_iff_le_mul (by omega)]
    nlinarith

/-- Few integer digits, and in all fewer than the limit by a thousand. -/
structure Short (layout : Layout) (most : ℕ) : Prop where
  bound : layout.integerMax = some most
  le : layout.integerMin ≤ most
  small : most + layout.fractionMax < 2 ^ (31 : ℕ) - 2 ^ (10 : ℕ)

namespace Short

theorem firstExponent?_eq (short : layout.Short most) (h : Representable units) :
    layout.firstExponent? (Magnitude.finite units h).leadingExponent =
      some (layout.firstExponent (.finite units h), layout.exponentStep) := by
  obtain ⟨bound, le, small⟩ := short
  obtain ⟨lower, upper⟩ := Magnitude.leadingExponent_range h
  obtain ⟨above, below⟩ := firstExponent_range bound (by omega) (.finite units h)
  rw [firstExponent?]
  rw [firstExponent] at above below ⊢
  generalize (Magnitude.finite units h).leadingExponent = leading at *
  split_ifs at above below ⊢ with fixed
  · have count : placesOfCount layout.integerMin = layout.integerMin :=
      placesOfCount_of_lt (by omega)
    rw [count] at above below ⊢
    simp only [Option.bind_eq_bind, Option.bind_some, Option.pure_def,
      word?_eq_some (m := layout.integerMin - 1) (by omega) (by omega),
      word?_eq_some (m := leading - (layout.integerMin - 1)) (by omega) (by omega),
      exponentStep_of_agree fixed]
  · obtain ⟨pos, -⟩ := exponentStep_range bound (by omega)
    obtain ⟨least, greatest⟩ := ediv_range pos lower upper
    cases given : layout.integerMax.filter (0 < ·) with
    | none => rw [exponentStep_of_not_pos given, Int.ediv_one, Int.mul_one]
    | some k =>
      obtain ⟨given, positive⟩ := Option.filter_eq_some_iff.mp given
      have step := exponentStep_of_pos fixed given (by simpa using positive)
      have divided : quotient? leading layout.exponentStep = some (leading / layout.exponentStep) :=
        quotient?_eq_some_iff.mpr ⟨by omega, by omega, rfl⟩
      simp only [← step, divided, Option.bind_eq_bind, Option.bind_some, Option.pure_def,
        word?_eq_some (m := leading / layout.exponentStep * layout.exponentStep) (by omega)
          (by omega)]

theorem mantissa?_eq (short : layout.Short most) (x : Magnitude) (lower : -2 ^ (31 : ℕ) < e)
    (upper : e < 2 ^ (31 : ℕ)) :
    layout.mantissa? (.signed false x) e = some (layout.mantissaAt x e) := by
  have fits : ∀ k ∈ layout.integerMax.map (· + layout.fractionMax),
      (x.shift (-e)).PlaceFits k := by
    rw [short.bound]
    rintro _ ⟨⟩
    exact Magnitude.placeFits_of_lt _ short.small
  rw [mantissa?, word?_eq_some (m := -e) (by omega) (by omega)]
  change (Binary64.signed false x).shift? (-e) >>= _ = _
  rw [Binary64.shift?_eq x (show -2 ^ (31 : ℕ) ≤ -e by omega) (by omega)]
  exact splitSignificant?_eq_some_iff.mpr ⟨fits, rfl⟩

/-- No number leaves the 32-bit range. -/
theorem scientific?_eq (short : layout.Short most) (a : Bool) (h : Representable units) :
    layout.scientific? (.signed a (.finite units h)) =
      some (layout.scientific (.finite units h)) := by
  have small := short.small
  obtain ⟨lower, upper⟩ := Magnitude.leadingExponent_range h
  obtain ⟨above, below⟩ := firstExponent_range short.bound (by omega) (.finite units h)
  obtain ⟨pos, le⟩ := exponentStep_range short.bound (by omega)
  rw [scientific?, scientific, Binary64.abs, Binary64.leadingExponent_signed,
    short.firstExponent?_eq h]
  generalize layout.firstExponent (.finite units h) = e at *
  simp only [Option.bind_eq_bind, Option.bind_some, Option.pure_def,
    short.mantissa?_eq (e := e) _ (by omega) (by omega),
    short.mantissa?_eq (e := e + layout.exponentStep) _ (by omega) (by omega),
    word?_eq_some (m := e + layout.exponentStep) (by omega) (by omega), apply_ite some]

end Short

/-- Each notation has a result where the counts of digits that it uses are not next to the limit. -/
theorem inRange_of_counts (wellFormed : layout.WellFormed) (x : Binary64)
    (fixed : layout.exponential = false → layout.significance = false →
      layout.fractionMax < 2 ^ (31 : ℕ))
    (scientific : layout.exponential → ∀ most ∈ layout.integerMax,
      most + layout.fractionMax < 2 ^ (31 : ℕ) - 2 ^ (10 : ℕ))
    (significant : layout.exponential = false → layout.significance →
      ∀ most ∈ layout.significantMax, most < 2 ^ (31 : ℕ) - 2 ^ (10 : ℕ)) :
    layout.InRange x := by
  have spec := layout.select_spec x
  constructor
  case scientific =>
    intro strategy
    rw [strategy] at spec
    obtain ⟨finite, -, exponential⟩ := spec
    obtain ⟨most, bound⟩ :=
      Option.isSome_iff_exists.mp (wellFormed.integerMax_isSome.mpr (.inl exponential))
    have short : layout.Short most :=
      ⟨bound, wellFormed.integer_le most bound, scientific exponential most bound⟩
    match x with
    | .signed a (.finite units h) => exact Option.isSome_of_eq_some (short.scientific?_eq a h)
  case significant =>
    intro strategy
    rw [strategy] at spec
    obtain ⟨finite, -, plain, significance⟩ := spec
    match x with
    | .signed a x =>
      exact Binary64.isSome_roundSignificant?_of_lt x (significant plain significance)
  case fixed =>
    intro strategy
    rw [strategy] at spec
    obtain ⟨finite, -, plain, positional⟩ := spec
    match x with
    | .signed a x =>
      exact Option.isSome_of_eq_some (Binary64.roundHalfEven?_ofNat_of_lt x (fixed plain positional))

/-- Layouts with few digits have a result for every number. -/
theorem CountsBelow.inRange (few : layout.CountsBelow (2 ^ (31 : ℕ) - 2 ^ (10 : ℕ)))
    (wellFormed : layout.WellFormed) (x : Binary64) : layout.InRange x :=
  inRange_of_counts wellFormed x (fun _ _ => Nat.lt_of_lt_of_le few.fraction (by decide))
    (fun _ => few.integer) (fun _ _ => few.significant)

end Layout

/-! ## Short patterns -/

theorem countsBelow_of_short (h : NumberFormat.compile p = .ok F) (short : p.length < 2 ^ (30 : ℕ))
    (v : Binary64) : (F.layoutFor v).CountsBelow (2 ^ (31 : ℕ) - 2 ^ (10 : ℕ)) := by
  have default : Pattern.defaultSource.length < 2 ^ (30 : ℕ) := by decide
  exact (countsBelow_layoutFor h v).mono (by omega)

/-- A short pattern has a text for every number. -/
theorem inRange_of_short (h : NumberFormat.compile p = .ok F) (short : p.length < 2 ^ (30 : ℕ))
    (v x : Binary64) : (F.layoutFor v).InRange x :=
  (countsBelow_of_short h short v).inRange (wellFormed_layoutFor h v) x

end DecimalPattern
