import DecimalPattern.Proofs.Format.MantissaDigits
import DecimalPattern.Proofs.Format.Range

/-! # Integer digits of exponential notation

Where the bounds on the integer digits agree the exponent leaves just so many before the point. A
mantissa that rounding carries to the next power of ten is formed again with the next exponent and
then has them, too. Only a layout without integer digits does not look for the carry.
-/

namespace DecimalPattern

-- Powers of natural numbers are the built-in ones, also beside the monoids of algebra.
attribute [local instance (2000)] instPowNat

variable {p : String} {F : NumberFormat} {layout : Layout} {n k i : ℕ}

/-! ## Digits -/

theorem length_digits_eq (lower : 10 ^ i ≤ n) (upper : n < 10 ^ (i + 1)) :
    (digits n).length = i + 1 := by
  refine Nat.le_antisymm ((length_digits_le_iff i.succ_pos).mpr upper) ?_
  rcases Nat.eq_zero_or_pos i with rfl | pos
  · exact Nat.length_toDigits_pos
  · by_contra short
    have := (length_digits_le_iff pos).mp (Nat.le_of_lt_succ (Nat.lt_of_not_le short))
    omega

/-! ## Exponents -/

namespace Magnitude

variable {units f : ℕ} {h : Representable units}

/-- No power of ten moves the value next to the tie below a further integer digit. Without integer
digits none moves it from that tie to the next power of ten either, which itself is exact. -/
structure RoundsClearly (units k f : ℕ) : Prop where
  tie : ∀ n : ℤ,
    tieBand (k + f) < |toReal units * 10 ^ n - (10 ^ (k + f) - 1 / 2)|
  carry : k = 0 → ∀ n : ℤ, toReal units * 10 ^ n < 10 ^ f - 1 / 2 ∨
    toReal units * 10 ^ n = 10 ^ f ∨ 10 ^ f * logSlack < toReal units * 10 ^ n

theorem moved_eq (e : ℤ) : toReal units * 10 ^ (f - e : ℤ) = toReal units * 10 ^ (-e) * 10 ^ f := by
  rw [mul_assoc, ← zpow_natCast, ← zpow_add₀ (by norm_num), sub_eq_neg_add]

end Magnitude

namespace Layout

open Magnitude

variable {units : ℕ}

/-- A layout whose bounds on the integer digits agree, with few digits in all. -/
structure BoundsAgree (layout : Layout) (k f : ℕ) : Prop where
  integerMin : layout.integerMin = k
  integerMax : layout.integerMax = some k
  fractionMax : layout.fractionMax = f
  few : k + f ≤ 11

namespace BoundsAgree

variable {f r : ℕ} {e : ℤ} {value : Magnitude}

theorem short (agree : layout.BoundsAgree k f) : layout.Short k := by
  have few := agree.few
  exact ⟨agree.integerMax, agree.integerMin.le, by rw [agree.fractionMax]; omega⟩

theorem exponentStep_eq (agree : layout.BoundsAgree k f) : layout.exponentStep = 1 :=
  exponentStep_of_agree (by rw [agree.integerMax, agree.integerMin])

theorem firstExponent_eq (agree : layout.BoundsAgree k f) :
    layout.firstExponent value = value.leadingExponent - (k - 1) := by
  have few := agree.few
  rw [Layout.firstExponent, agree.integerMax, agree.integerMin, if_pos rfl,
    placesOfCount_of_lt (by omega)]

theorem integer_mantissaAt (agree : layout.BoundsAgree k f) {hr : Representable r}
    (eq : (value.shift (-e)).roundSignificant (some (k + f)) = .finite r hr) :
    (layout.mantissaAt value e).integer = digits (shortest r).integerPart := by
  rw [mantissaAt, significantNumeral, agree.integerMax, agree.fractionMax,
    Option.map_some, eq, paddedNumeral, numeral_finite]
  rfl

theorem overflows_iff (agree : layout.BoundsAgree k f) {mantissa : Numeral} :
    layout.overflows mantissa ↔ 0 < k ∧ k < mantissa.integer.length := by
  simp [overflows, agree.integerMax]

theorem trimInteger_of_pos (agree : layout.BoundsAgree k f) (pos : 0 < k) (mantissa : Numeral) :
    layout.trimInteger mantissa = mantissa := by
  rw [trimInteger, agree.integerMin, if_neg (by omega)]

/-- The mantissa that the logarithm leads to. -/
theorem exists_first (few : k + f ≤ 11) (h : Representable units) (ne : units ≠ 0)
    (eq : e = floorLog units - (k - 1)) :
    ∃ r hr, ((Magnitude.finite units h).shift (-e)).roundSignificant (some (k + f)) =
      .finite r hr ∧ KeepsDigits k f (toReal units * 10 ^ (-e)) r := by
  obtain ⟨above, below⟩ := mantissa_bounds h ne e
  have place : floorLog units - e = k - 1 := by omega
  have nonneg : 0 ≤ toReal units * 10 ^ (-e) :=
    mul_nonneg (toReal_nonneg units) (zpow_nonneg (by norm_num) _)
  have power : (0 : ℝ) < 10 ^ k := by positivity
  rw [place, logSlack_eq] at above
  rw [place, sub_add_cancel, zpow_natCast, logSlack_eq] at below
  exact exists_keepsDigits h ne few (.inl place) (by linarith) (by linarith)

/-- The first mantissa does not fall short. -/
theorem lt_first (few : i + 1 + f ≤ 11) (h : Representable units) (ne : units ≠ 0)
    (eq : e = floorLog units - i) :
    10 ^ (i + 1 + f) - 1 / 2 + tieBand (i + 1 + f) < toReal units * 10 ^ (-e) * 10 ^ (f + 1) := by
  have above := (mantissa_bounds h ne e).1
  rw [show floorLog units - e = (i : ℤ) by omega, zpow_natCast, logSlack_eq, mul_add, mul_one]
    at above
  have moved := mul_le_mul_of_nonneg_right above
    (pow_nonneg (show (0 : ℝ) ≤ 10 by norm_num) (f + 1))
  have digits : (10 : ℝ) ^ (i + 1 + f) ≤ 10 ^ (11 : ℕ) := pow_le_pow_right₀ (by norm_num) few
  rw [← pow_add, show i + (f + 1) = i + 1 + f by omega] at moved
  rw [tieBand_eq]
  linarith

/-- A value above the tie below a power of ten is above two thirds of that power. -/
theorem le_of_tie_lt {y : ℝ}
    (large : 10 ^ (i + 1 + f) - 1 / 2 + tieBand (i + 1 + f) < y * 10 ^ (f + 1)) :
    10 ^ i ≤ 3 / 2 * y := by
  have nonneg := tieBand_nonneg (i + 1 + f)
  have least : (1 : ℝ) ≤ 10 ^ (i + f) := one_le_pow₀ (by norm_num)
  have tenth : (10 : ℝ) ^ (i + 1 + f) = 10 ^ (i + f) * 10 := by ring
  refine le_of_mul_le_mul_right ?_ (pow_pos (show (0 : ℝ) < 10 by norm_num) (f + 1))
  rw [← pow_add, show i + (f + 1) = i + 1 + f by omega]
  linarith

/-- A value next to a tenth of a power of ten is far below the tie of that power. -/
theorem lt_tie_of_le {y : ℝ} (few : i + 1 + f ≤ 11) (small : y ≤ 10 ^ i * logSlack) :
    y * 10 ^ f < 10 ^ (i + 1 + f) - 1 / 2 - tieBand (i + 1 + f) := by
  have moved := mul_le_mul_of_nonneg_right small
    (pow_nonneg (show (0 : ℝ) ≤ 10 by norm_num) f)
  rw [mul_right_comm, ← pow_add, logSlack_eq, mul_add, mul_one] at moved
  have least : (1 : ℝ) ≤ 10 ^ (i + f) := one_le_pow₀ (by norm_num)
  have digits : (10 : ℝ) ^ (i + 1 + f) ≤ 10 ^ (11 : ℕ) := pow_le_pow_right₀ (by norm_num) few
  have tenth : (10 : ℝ) ^ (i + 1 + f) = 10 ^ (i + f) * 10 := by ring
  rw [tieBand_eq]
  linarith

/-- The mantissa with the next exponent, where the first one is carried. -/
theorem exists_second (few : i + 1 + f ≤ 11) (h : Representable units) (ne : units ≠ 0)
    (eq : e = floorLog units - i)
    (carried : 10 ^ (i + 1 + f) - 1 / 2 + tieBand (i + 1 + f) < toReal units * 10 ^ (-e) * 10 ^ f) :
    ∃ r hr, ((Magnitude.finite units h).shift (-(e + 1))).roundSignificant (some (i + 1 + f)) =
      .finite r hr ∧ 10 ^ i ≤ (shortest r).integerPart ∧
        (shortest r).integerPart < 10 ^ (i + 1) := by
  have place : floorLog units - (e + 1) = (i + 1 : ℕ) - 2 := by omega
  have below : toReal units * 10 ^ (-(e + 1)) ≤ 10 ^ i * logSlack := by
    have := (mantissa_bounds h ne (e + 1)).2
    rwa [show floorLog units - (e + 1) + 1 = (i : ℤ) by omega, zpow_natCast] at this
  have next : toReal units * 10 ^ (-e) = toReal units * 10 ^ (-(e + 1)) * 10 := by
    rw [mul_assoc, ← zpow_add_one₀ (by norm_num), neg_add, neg_add_cancel_right]
  rw [next, mul_assoc, ← pow_succ'] at carried
  have lower := le_of_tie_lt carried
  rw [← zpow_natCast, show (i : ℤ) = (i + 1 : ℕ) - 1 by omega] at lower
  have upper : toReal units * 10 ^ (-(e + 1)) ≤ 3 / 2 * 10 ^ (i + 1) := by
    have power : (0 : ℝ) < 10 ^ i := by positivity
    rw [logSlack_eq] at below
    rw [pow_succ]
    linarith
  obtain ⟨r, hr, rounded, keeps⟩ := exists_keepsDigits h ne few (.inr place) lower upper
  exact ⟨r, hr, rounded, keeps.le_integerPart i rfl carried,
    keeps.integerPart_lt (lt_tie_of_le few below)⟩

theorem exists_integer_scientific (agree : layout.BoundsAgree (i + 1) f) (h : Representable units)
    (ne : units ≠ 0) (clear : RoundsClearly units (i + 1) f) :
    ∃ n, 10 ^ i ≤ n ∧ n < 10 ^ (i + 1) ∧
      (layout.scientific (.finite units h)).mantissa.integer = digits n := by
  have few := agree.few
  obtain ⟨e, first⟩ : ∃ e, e = floorLog units - i := ⟨_, rfl⟩
  have start : layout.firstExponent (.finite units h) = e := by
    rw [agree.firstExponent_eq, leadingExponent, if_neg ne, first, Nat.cast_succ,
      add_sub_cancel_right]
  have place : e = floorLog units - ((i + 1 : ℕ) - 1) := by omega
  obtain ⟨r, hr, eq, keeps⟩ := exists_first few h ne place
  have integer := agree.integer_mantissaAt eq
  rw [scientific, start, agree.exponentStep_eq]
  dsimp only
  split_ifs with overflows
  · have large : ¬ (shortest r).integerPart < 10 ^ (i + 1) := by
      rw [← length_digits_le_iff i.succ_pos, ← integer, Nat.not_le]
      exact (agree.overflows_iff.mp overflows).2
    have carried := (lt_abs.mp (moved_eq (f := f) e ▸ clear.tie (f - e))).resolve_right fun below =>
      large (keeps.integerPart_lt (by linarith))
    obtain ⟨r, hr, eq, lower, upper⟩ := exists_second few h ne first (by linarith)
    exact ⟨_, lower, upper, by
      rw [agree.trimInteger_of_pos i.succ_pos, agree.integer_mantissaAt eq]⟩
  · refine ⟨_, keeps.le_integerPart i rfl (lt_first few h ne first), ?_, by
      rw [agree.trimInteger_of_pos i.succ_pos, integer]⟩
    rw [agree.overflows_iff, not_and, Nat.not_lt] at overflows
    exact (length_digits_le_iff i.succ_pos).mp (integer ▸ overflows i.succ_pos)

/-- Without integer digits a carry is not looked for, so that there may be none. -/
theorem lt_tie_of_zero (h : Representable units) (ne : units ≠ 0)
    (eq : e = floorLog units + 1) (clear : RoundsClearly units 0 f) :
    toReal units * 10 ^ (-e) * 10 ^ f < 10 ^ (0 + f) - 1 / 2 - tieBand (0 + f) := by
  have tie := clear.tie (f - e)
  have carry := clear.carry rfl (f - e)
  have below := (mantissa_bounds h ne e).2
  rw [show floorLog units - e + 1 = 0 by omega, zpow_zero, one_mul] at below
  have moved := mul_le_mul_of_nonneg_right below (pow_nonneg (show (0 : ℝ) ≤ 10 by norm_num) f)
  rcases carry with small | exact | large
  · rw [moved_eq] at small tie
    rw [← Nat.zero_add f] at small
    have := (lt_abs.mp tie).resolve_left fun above => by
      have := tieBand_nonneg (0 + f)
      rw [Nat.zero_add] at *
      linarith
    linarith
  · have power : toReal units = (10 : ℝ) ^ e := by
      refine mul_right_cancel₀ (zpow_ne_zero (f - e : ℤ) (show (10 : ℝ) ≠ 0 by norm_num)) ?_
      rw [exact, ← zpow_add₀ (by norm_num), add_sub_cancel, zpow_natCast]
    have := floorLog_of_toReal_eq h power
    omega
  · rw [moved_eq] at large
    linarith

theorem integer_scientific_of_zero (agree : layout.BoundsAgree 0 f) (h : Representable units)
    (ne : units ≠ 0) (clear : RoundsClearly units 0 f) :
    (layout.scientific (.finite units h)).mantissa.integer = [] := by
  obtain ⟨e, first⟩ : ∃ e, e = floorLog units + 1 := ⟨_, rfl⟩
  have start : layout.firstExponent (.finite units h) = e := by
    rw [agree.firstExponent_eq, leadingExponent, if_neg ne, first]
    rfl
  obtain ⟨r, hr, eq, keeps⟩ := exists_first (k := 0) agree.few h ne first
  have none := keeps.integerPart_lt (lt_tie_of_zero h ne first clear)
  rw [Nat.pow_zero, Nat.lt_one_iff] at none
  have integer := agree.integer_mantissaAt eq
  rw [none] at integer
  rw [scientific, start]
  dsimp only
  rw [if_neg (by simp [agree.overflows_iff]), trimInteger, agree.integerMin,
    if_pos ⟨rfl, integer⟩]

/-- The mantissa has the integer digits that the layout asks for, the first of them not zero. -/
theorem integer_scientific (agree : layout.BoundsAgree k f) (h : Representable units)
    (ne : units ≠ 0) (clear : RoundsClearly units k f) :
    (layout.scientific (.finite units h)).mantissa.integer.length = k ∧
      (layout.scientific (.finite units h)).mantissa.integer.head? ≠ some '0' := by
  cases k with
  | zero =>
    rw [agree.integer_scientific_of_zero h ne clear]
    exact ⟨rfl, nofun⟩
  | succ i =>
    obtain ⟨n, lower, upper, eq⟩ := agree.exists_integer_scientific h ne clear
    rw [eq]
    exact ⟨length_digits_eq lower upper,
      head?_digits_ne (Nat.lt_of_lt_of_le (Nat.pow_pos (by decide)) lower)⟩

end BoundsAgree

end Layout

/-! ## Formats -/

/-- A mantissa has just the integer digits that the bounds agree on. -/
theorem format?_of_roundsClearly (h : NumberFormat.compile p = .ok F) {v : Binary64}
    {negative : Bool} {units f : ℕ} {hu : Representable units}
    (scaled : v.scale (F.layoutFor v).scale = .signed negative (.finite units hu))
    (ne : units ≠ 0) (exponential : (F.layoutFor v).exponential)
    (agree : (F.layoutFor v).BoundsAgree k f) (clear : Magnitude.RoundsClearly units k f) :
    ∃ s : Scientific, s.mantissa.integer.length = k ∧ s.mantissa.integer.head? ≠ some '0' ∧
      ∀ symbols, F.format? symbols v = some (Piece.renderAll symbols
        (.text ((F.layoutFor v).affixes v).before :: (F.layoutFor v).scientificPieces s ++
          [.text ((F.layoutFor v).affixes v).after])) := by
  obtain ⟨length, head⟩ := agree.integer_scientific hu ne clear
  refine ⟨_, length, head, fun symbols => format?_of_body symbols ?_⟩
  have shown := (wellFormed_layoutFor h v).literal_eq_false (.inl exponential)
  rw [scaled, Layout.bodyPieces?_of_exponential rfl shown exponential,
    agree.short.scientific?_eq negative hu]
  rfl

theorem format?_of_roundsClearly_of_carry :
    let F := NumberFormat.ofSections (Pattern.ofTexts "00.0E0" "00.0E0".toList [])
    ∃ hu : Representable (99999 * Magnitude.one),
      let v := Binary64.signed true (.finite _ hu)
      NumberFormat.compile "00.0E0" = .ok F ∧
        v.scale (F.layoutFor v).scale = .signed true (.finite _ hu) ∧
        99999 * Magnitude.one ≠ 0 ∧ (F.layoutFor v).exponential ∧
        (F.layoutFor v).BoundsAgree 2 1 ∧
        Magnitude.RoundsClearly (99999 * Magnitude.one) 2 1 ∧
        ∃ s : Scientific, s.mantissa.integer.length = 2 ∧ s.mantissa.integer.head? ≠ some '0' ∧
          ∀ symbols, F.format? symbols v = some (Piece.renderAll symbols
            (.text "-" :: (F.layoutFor v).scientificPieces s ++ [.text ""])) := by
  intro F
  have compiled : NumberFormat.compile "00.0E0" = .ok F :=
    compile_eq_ok (by decide) (by decide) (by decide) (by decide)
  have hu : Representable (99999 * Magnitude.one) := Magnitude.representable_of_lt (by decide)
  have layout := layoutFor_of_single (F := F) rfl
  have ne : 99999 * Magnitude.one ≠ 0 := Nat.mul_ne_zero (by decide) Magnitude.one_pos.ne'
  have agree : F.layout.BoundsAgree 2 1 := ⟨by decide, by decide, by decide, by decide⟩
  have value : Magnitude.toReal (99999 * Magnitude.one) = 99999 := Magnitude.toReal_mul_one _
  have clear : Magnitude.RoundsClearly (99999 * Magnitude.one) 2 1 := by
    refine ⟨fun n => ?_, nofun⟩
    have band : Magnitude.tieBand (2 + 1) < 1 / 4 := by norm_num [Magnitude.tieBand_eq]
    rw [value, lt_abs]
    rcases lt_trichotomy n (-2) with low | rfl | high
    · have power : (10 : ℝ) ^ n ≤ 10 ^ (-3 : ℤ) :=
        zpow_le_zpow_right₀ (by norm_num) (by omega)
      norm_num at power ⊢
      right
      linarith
    · norm_num at band ⊢
      left
      linarith
    · have power : (10 : ℝ) ^ (-1 : ℤ) ≤ 10 ^ n :=
        zpow_le_zpow_right₀ (by norm_num) (by omega)
      norm_num at power ⊢
      left
      linarith
  have scaled : (Binary64.signed true (.finite _ hu)).scale 1 = .signed true (.finite _ hu) :=
    Binary64.scale_one true hu
  refine ⟨hu, compiled, ?_, ne, ?_, ?_, clear, ?_⟩
  · rw [layout]
    exact scaled
  · rw [layout]
    decide
  · rw [layout]
    exact agree
  · have shown := format?_of_roundsClearly compiled (v := .signed true (.finite _ hu))
      (by rw [layout]; exact scaled) ne (by rw [layout]; decide) (by rw [layout]; exact agree)
      clear
    rw [layout, Layout.affixes, if_pos (Binary64.isNegative_of_ne_zero ne hu)] at shown
    rw [layout]
    exact shown

/-- Without integer digits a mantissa that is carried to one stays as it is. -/
theorem format?_of_bare_fraction_carried :
    let F := NumberFormat.ofSections (Pattern.ofTexts ".0E0" ".0E0".toList [])
    let v := Binary64.ofBits 0x3feeb851eb851eb8
    let s : Scientific := ⟨⟨['1'], []⟩, 0⟩
    NumberFormat.compile ".0E0" = .ok F ∧ F.zero = none ∧ F.layout.exponential ∧
      F.layout.integerMin = 0 ∧ F.layout.integerMax = some 0 ∧
      (v.scale F.layout.scale).isFinite ∧ ¬ v.isZero ∧
      (∀ symbols, F.format? symbols v =
        some (Piece.renderAll symbols (.text "" :: F.layout.scientificPieces s ++ [.text ""]))) ∧
      s.mantissa.integer.length = 1 := by
  intro F v s
  have compiled : NumberFormat.compile ".0E0" = .ok F :=
    compile_eq_ok (by decide) (by decide) (by decide) (by decide)
  have pieces : F.pieces? v = some (.text "" :: F.layout.scientificPieces s ++ [.text ""]) := by
    decide +kernel
  refine ⟨compiled, rfl, by decide, by decide, by decide, by decide +kernel, by decide +kernel,
    fun symbols => ?_, rfl⟩
  rw [F.format?_eq_map, pieces]
  rfl

end DecimalPattern
