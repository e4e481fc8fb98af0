import DecimalPattern.Proofs.Binary64.DecimalPlace
import DecimalPattern.Proofs.Format.Range
import Mathlib.Data.List.DropRight

/-! # Significant digits

A number rounded to some significant digits reads back from an integer with so many digits at an
exact place, and a shortest decimal has no more digits than that. Beyond the exact powers of ten
this fails, unless seventeen digits are allowed.
-/

namespace DecimalPattern

-- Powers of natural numbers are the built-in ones, also beside the monoids of algebra.
attribute [local instance (2000)] instPowNat

variable {p : String} {F : NumberFormat} {layout : Layout} {d : Decimal} {c n power : ℕ}

/-! ## Digits of numerals -/

theorem digits_mul_ten_pow (pos : 0 < c) (n : ℕ) :
    digits (c * 10 ^ n) = digits c ++ List.replicate n '0' := by
  induction n with
  | zero => simp
  | succ n ih =>
    have positive : 0 < c * 10 ^ n := Nat.mul_pos pos (Nat.pow_pos (by decide))
    rw [Nat.pow_succ, ← Nat.mul_assoc, Nat.mul_comm _ 10, ← Nat.add_zero (10 * _),
      digits_append positive (by decide), ih, List.append_assoc, List.replicate_succ']
    rfl

namespace Numeral

variable {numeral : Numeral}

/-- The digits that count: leading zeros do not, and without a fraction trailing ones neither. -/
def significantDigits (n : Numeral) : List Char :=
  if n.fraction.isEmpty then n.leading.rdropWhile (· == '0') else n.leading

theorem length_leading_le (n : Numeral) :
    n.leading.length ≤ n.integer.length + n.fraction.length := by
  rw [← List.length_append]
  exact (List.dropWhile_suffix _).length_le

end Numeral

theorem dropWhile_replicate_append (n : ℕ) (ds : List Char) :
    (List.replicate n '0' ++ ds).dropWhile (· == '0') = ds.dropWhile (· == '0') := by
  induction n with
  | zero => rfl
  | succ n ih => simp [List.replicate_succ, ih]

theorem rdropWhile_append_replicate (ds : List Char) (n : ℕ) :
    (ds ++ List.replicate n '0').rdropWhile (· == '0') = ds.rdropWhile (· == '0') := by
  rw [List.rdropWhile, List.reverse_append, List.reverse_replicate, dropWhile_replicate_append,
    List.rdropWhile]

/-- Zeros on either side do not count. -/
theorem length_trimmed_le (ds : List Char) (n : ℕ) :
    (((ds ++ List.replicate n '0').dropWhile (· == '0')).rdropWhile (· == '0')).length ≤
      ds.length := by
  rw [List.dropWhile_append]
  split_ifs
  · have zeros := dropWhile_replicate_append n []
    rw [List.append_nil] at zeros
    simp [zeros]
  · rw [rdropWhile_append_replicate]
    exact Nat.le_trans (List.rdropWhile_prefix _ _).length_le (List.dropWhile_suffix _).length_le

namespace Decimal

/-- A decimal shows the digits of its coefficient. -/
theorem length_leading_le (pos : 0 < n) (lt : d.coefficient < 10 ^ n) :
    d.numeral.leading.length ≤ n := by
  have places : 0 < 10 ^ d.places := Nat.pow_pos (by decide)
  rcases Nat.eq_zero_or_pos d.integerPart with zero | large
  · have small : d.coefficient % 10 ^ d.places = d.coefficient :=
      Nat.mod_eq_of_lt ((Nat.div_eq_zero_iff_lt places).mp zero)
    have short := (length_digits_le_iff pos).mpr lt
    rw [Numeral.leading, numeral, zero]
    have zero_digits : digits 0 = List.replicate 1 '0' := rfl
    rw [zero_digits, dropWhile_replicate_append, fractionDigits]
    split_ifs
    · simp
    · rw [List.leftpad, dropWhile_replicate_append, small]
      exact Nat.le_trans (List.dropWhile_suffix _).length_le short
  · refine Nat.le_trans (Numeral.length_leading_le _) ?_
    have reached : 10 ^ d.places ≤ d.coefficient := (Nat.div_pos_iff.mp large).2
    have lt_places : d.places < n := by
      by_contra ge
      have := Nat.pow_le_pow_right (show 0 < 10 by decide) (Nat.le_of_not_lt ge)
      omega
    have few : d.integerPart < 10 ^ (n - d.places) := by
      rw [integerPart, Nat.div_lt_iff_lt_mul places, ← Nat.pow_add, Nat.sub_add_cancel lt_places.le]
      exact lt
    have := (length_digits_le_iff (Nat.sub_pos_of_lt lt_places)).mpr few
    rw [numeral, length_fractionDigits]
    dsimp only
    omega

/-- The numeral of a decimal with zeros up to some significant digits. -/
def filled (d : Decimal) (least : ℕ) : Numeral :=
  { d.numeral with
    fraction := d.numeral.fraction ++ List.replicate (least - d.numeral.significantCount) '0' }

theorem length_leading_filled (d : Decimal) (least : ℕ) :
    (d.filled least).leading.length ≤
      d.numeral.leading.length + (least - d.numeral.significantCount) := by
  rw [filled, Numeral.leading]
  dsimp only
  rw [← List.append_assoc, List.dropWhile_append]
  split_ifs
  · refine Nat.le_trans (List.dropWhile_suffix _).length_le ?_
    simp
  · simp [Numeral.leading]

end Decimal

/-- A shortest decimal with few digits shows few of them, also where zeros are filled in. -/
theorem Magnitude.IsShortest.length_significantDigits_le {units least : ℕ}
    (short : IsShortest units d c power) (pos : 0 < n) (lt : c < 10 ^ n) (le : least ≤ n) :
    (d.filled least).significantDigits.length ≤ n := by
  have count : d.numeral.leading.length ≤ d.numeral.significantCount := le_max_right _ _
  have filled := d.length_leading_filled least
  rw [Numeral.significantDigits]
  rcases Nat.eq_zero_or_pos (least - d.numeral.significantCount) with none | some
  · have same : d.filled least = d.numeral := by
      rw [Decimal.filled, none, List.replicate_zero, List.append_nil]
    rw [same]
    have places := d.length_fractionDigits
    split_ifs with whole
    · have zero : d.places = 0 := by
        rw [← places, List.length_eq_zero_iff]
        exact List.isEmpty_iff.mp whole
      have fraction : d.fractionDigits = [] := List.isEmpty_iff.mp whole
      rw [Numeral.leading, Decimal.numeral, fraction, Decimal.integerPart, zero, Nat.pow_zero,
        Nat.div_one, List.append_nil, short.coefficient]
      rcases Nat.eq_zero_or_pos c with rfl | nonzero
      · have trimmed := length_trimmed_le [] 1
        rw [Nat.zero_mul]
        exact Nat.le_trans trimmed (Nat.zero_le n)
      · rw [digits_mul_ten_pow nonzero]
        exact Nat.le_trans (length_trimmed_le _ _) ((length_digits_le_iff pos).mpr lt)
    · have fine : power < 1074 := by
        have := short.places
        by_contra coarse
        refine whole (List.isEmpty_iff.mpr (List.eq_nil_of_length_eq_zero ?_))
        exact places.trans (by omega)
      refine Decimal.length_leading_le pos ?_
      rwa [short.coefficient, Nat.sub_eq_zero_of_le fine.le, Nat.pow_zero, Nat.mul_one]
  · have shown : (d.filled least).fraction.isEmpty = false := by
      simp [Decimal.filled, some.ne']
    rw [if_neg (by simp [shown])]
    omega

/-! ## Rounded numbers -/

namespace Magnitude

variable {units r j place : ℕ}

/-- A decimal that reads back bounds the digits shown. -/
theorem length_significantDigits_of_readsBack {least : ℕ} (h : Representable r) (pos : 0 < n)
    (le : j ≤ 10 ^ n) (reads : readsBack r (j * 10 ^ place)) (fits : least ≤ n) :
    ((shortest r).filled least).significantDigits.length ≤ n := by
  by_cases zero : r = 0
  · have short : IsShortest r (shortest r) 0 1074 := by
      rw [zero, shortest, if_pos rfl]
      exact isShortest_zero le_rfl
    exact short.length_significantDigits_le pos (Nat.pow_pos (by decide)) fits
  · obtain ⟨c, power, short⟩ := exists_isShortest h
    have nonzero : 0 < j := by
      refine Nat.pos_of_ne_zero ?_
      rintro rfl
      rw [Nat.zero_mul, readsBack_iff h.1, nearestUnits_zero] at reads
      exact zero reads.symm
    exact short.length_significantDigits_le pos (short.lt_pow h.1 pos nonzero le reads) fits

/-- A number with its logarithm takes at most the digits that it is rounded to. -/
theorem exists_readsBack_of_roundHalfEven (h : Representable units) (ne : units ≠ 0) {most : ℕ}
    (few : most ≤ 12) (exact : (most - ceilLog units).natAbs ≤ 22) (hr : Representable r)
    (eq : (finite units h).roundHalfEven (most - ceilLog units) = finite r hr) :
    ∃ j place, j ≤ 10 ^ most ∧ readsBack r (j * 10 ^ place) := by
  have bound := mul_zpow_sub_le (n := most) (ceilLog_bounds h ne).1
  have large : (10 : ℝ) ^ most ≤ 10 ^ (12 : ℕ) := pow_le_pow_right₀ (by norm_num) few
  rw [logSlack_eq, mul_add, mul_one] at bound
  obtain ⟨j, -, near, value⟩ := exists_roundHalfEven_eq h exact (by linarith)
  refine ⟨j, _, ?_, readsBack_of_round hr (by omega) (value.symm.trans eq)⟩
  -- Nothing but the error of the logarithm takes the integer beyond the power of ten.
  have lt : (j : ℝ) < (10 ^ most : ℕ) + 1 := by
    rw [Nat.cast_pow, Nat.cast_ofNat]
    have := (abs_le.mp near).2
    linarith
  exact Nat.lt_succ_iff.mp (by exact_mod_cast lt)

/-- The places at which the powers of ten are exact, by the value. -/
theorem natAbs_place_le (h : Representable units) (ne : units ≠ 0) {most : ℤ}
    (lower : (10 : ℝ) ^ (most - 22) ≤ toReal units)
    (upper : toReal units ≤ (10 : ℝ) ^ (most + 21)) : (most - ceilLog units).natAbs ≤ 22 := by
  obtain ⟨above, below⟩ := ceilLog_bounds h ne
  have slack : logSlack < 10 := by norm_num [logSlack_eq]
  have ten : (10 : ℝ) ≠ 0 := by norm_num
  have low : (10 : ℝ) ^ (most - 22) < 10 ^ (ceilLog units + 1) := by
    rw [zpow_add_one₀ ten]
    exact (lower.trans above).trans_lt (mul_lt_mul_of_pos_left slack (zpow_pos (by norm_num) _))
  have high : (10 : ℝ) ^ (ceilLog units - 1) < 10 ^ (most + 21 + 1) := by
    rw [zpow_add_one₀ ten]
    exact below.trans_lt (mul_lt_mul' upper slack (by norm_num [logSlack_eq])
      (zpow_pos (by norm_num) _))
  have low := (zpow_lt_zpow_iff_right₀ (by norm_num)).mp low
  have high := (zpow_lt_zpow_iff_right₀ (by norm_num)).mp high
  omega

/-- Rounding to at least seventeen digits, or to at most twelve where the powers are exact. -/
inductive RoundsToDigits (units most : ℕ) : Prop
  | many (h : 17 ≤ most)
  | few (h : most ≤ 12) (lower : (10 : ℝ) ^ ((most : ℤ) - 22) ≤ toReal units)
      (upper : toReal units ≤ (10 : ℝ) ^ ((most : ℤ) + 21))

theorem exists_readsBack_of_roundSignificant (h : Representable units) (ne : units ≠ 0) {most : ℕ}
    (range : RoundsToDigits units most) (hr : Representable r)
    (eq : (finite units h).roundSignificant (some most) = finite r hr) :
    ∃ j place, j ≤ 10 ^ most ∧ readsBack r (j * 10 ^ place) := by
  cases range with
  | many many =>
    by_cases zero : r = 0
    · subst zero
      exact ⟨0, 0, Nat.zero_le _, by simpa using readsBack_value hr.1⟩
    · obtain ⟨j, place, -, le, reads⟩ := exists_readsBack_of_seventeen hr zero
      exact ⟨j, place, Nat.le_trans le (Nat.pow_le_pow_right (by decide) many), reads⟩
  | few few lower upper =>
    have small : most < 2 ^ (31 : ℕ) := by omega
    rw [roundSignificant, leadingPlace, if_neg ne, placesOfCount_of_lt small] at eq
    exact exists_readsBack_of_roundHalfEven h ne few (natAbs_place_le h ne lower upper) hr eq

theorem length_significantDigits_le {least most : ℕ} (h : Representable units) (ne : units ≠ 0)
    (pos : 0 < most) (fits : least ≤ most) (range : RoundsToDigits units most)
    (finite : ((Magnitude.finite units h).roundSignificant (some most)).isFinite) :
    (significantNumeral (.finite units h) least (some most) '0').significantDigits.length ≤
      most := by
  cases eq : (Magnitude.finite units h).roundSignificant (some most) with
  | infinite =>
    rw [eq] at finite
    exact absurd finite Bool.false_ne_true
  | finite r hr =>
    obtain ⟨j, place, le, reads⟩ := exists_readsBack_of_roundSignificant h ne range hr eq
    have shown := length_significantDigits_of_readsBack hr pos le reads fits
    rw [significantNumeral, eq, paddedNumeral, numeral_finite]
    exact shown

end Magnitude

/-! ## Pieces -/

/-- What a piece shows apart from symbols. -/
def Piece.chars : Piece → List Char
  | text s => s.toList
  | symbol _ => []

/-- The digits of an output, without its separators. -/
def shownDigits (pieces : List Piece) : List Char := pieces.flatMap Piece.chars

/-- Of the digits shown those that count: leading zeros do not, and where no fraction is shown
trailing zeros do not either. -/
def significantDigits (pieces : List Piece) : List Char :=
  let leading := (shownDigits pieces).dropWhile (· == '0')
  if .symbol .decimalSeparator ∈ pieces then leading else leading.rdropWhile (· == '0')

theorem shownDigits_append (a b : List Piece) :
    shownDigits (a ++ b) = shownDigits a ++ shownDigits b := List.flatMap_append

theorem shownDigits_ofDigits (ds : List Char) : shownDigits [.ofDigits ds] = ds := by
  simp [shownDigits, Piece.chars, Piece.ofDigits]

theorem shownDigits_intersperse (s : Symbol) (pieces : List Piece) :
    shownDigits (pieces.intersperse (.symbol s)) = shownDigits pieces := by
  fun_induction pieces.intersperse (.symbol s) with
  | case1 | case2 => rfl
  | case3 a l _ ih => simpa [shownDigits, Piece.chars] using ih

theorem shownDigits_groups (groups : List (List Char)) :
    shownDigits (groups.map Piece.ofDigits) = groups.flatten := by
  induction groups with
  | nil => rfl
  | cons group groups ih =>
    rw [List.map_cons, List.flatten_cons, ← ih]
    simp [shownDigits, Piece.chars, Piece.ofDigits]

theorem shownDigits_fractionPieces (fraction : List Char) :
    shownDigits (fractionPieces fraction) = fraction := by
  unfold fractionPieces
  split_ifs with empty
  · exact (List.isEmpty_iff.mp empty).symm
  · simp [shownDigits, Piece.chars, Piece.ofDigits]

namespace Layout

variable {numeral : Numeral} {pieces : List Piece} {ds : List Char}

theorem shownDigits_integerPieces (eq : layout.integerPieces? ds = some pieces) :
    shownDigits pieces = ds ∧ .symbol .decimalSeparator ∉ pieces := by
  unfold integerPieces? at eq
  split at eq
  next =>
    constructor
    · obtain ⟨groups, cut, rfl⟩ := Option.map_eq_some_iff.mp eq
      rw [shownDigits_intersperse, shownDigits_groups, Grouping.flatten_groups? cut]
    · exact fun mem => nomatch symbol_mem_groupPieces eq mem
  next =>
    obtain rfl := Option.some.inj eq
    exact ⟨shownDigits_ofDigits ds, by simp⟩

theorem significantDigits_positionalPieces
    (eq : layout.positionalPieces? numeral = some pieces) :
    significantDigits pieces = numeral.significantDigits := by
  obtain ⟨integer, cut, rfl⟩ := Option.map_eq_some_iff.mp eq
  obtain ⟨digits, absent⟩ := shownDigits_integerPieces cut
  have point : .symbol .decimalSeparator ∈ integer ++ fractionPieces numeral.fraction ↔
      ¬ numeral.fraction.isEmpty := by
    unfold fractionPieces
    split_ifs with empty
    · simp [absent, empty]
    · simp [empty]
  rw [significantDigits, shownDigits_append, digits, shownDigits_fractionPieces,
    Numeral.significantDigits, Numeral.leading]
  simp only [point]
  split_ifs <;> simp_all

theorem length_significantDigits_le {units most : ℕ} {a : Bool} (wellFormed : layout.WellFormed)
    (pad : layout.pad = '0') (plain : layout.exponential = false)
    (bound : layout.significantMax = some most) (h : Representable units) (ne : units ≠ 0)
    (range : Magnitude.RoundsToDigits units most)
    (finite : ((Magnitude.finite units h).roundSignificant (some most)).isFinite)
    (eq : layout.bodyPieces? (.signed a (.finite units h)) = some pieces) :
    (significantDigits pieces).length ≤ most := by
  have significance : layout.significance := by
    rw [← wellFormed.significantMax_isSome, bound]
    rfl
  have fits := wellFormed.significant_le most bound
  rw [bodyPieces?_of_significant rfl (wellFormed.literal_eq_false (.inr significance)) plain
    significance, bound, pad] at eq
  obtain ⟨numeral, run, eq⟩ := Option.bind_eq_some_iff.mp eq
  obtain ⟨-, rfl⟩ := splitSignificant?_eq_some_iff.mp run
  rw [significantDigits_positionalPieces eq]
  exact Magnitude.length_significantDigits_le h ne
    (Nat.lt_of_lt_of_le wellFormed.significantMin_pos fits) fits range finite

end Layout

/-! ## Formats -/

/-- A number shows no more significant digits than the layout allows. -/
theorem format?_of_roundsToDigits (h : NumberFormat.compile p = .ok F) {v r : Binary64}
    {negative : Bool} {units most : ℕ} {hu : Representable units}
    (scaled : v.scale (F.layoutFor v).scale = .signed negative (.finite units hu))
    (ne : units ≠ 0) (plain : (F.layoutFor v).exponential = false)
    (bound : (F.layoutFor v).significantMax = some most)
    (range : Magnitude.RoundsToDigits units most)
    (rounded : (Binary64.signed false (.finite units hu)).roundSignificant? (some most) = some r)
    (finite : r.isFinite) :
    ∃ body, (significantDigits body).length ≤ most ∧ ∀ symbols,
      F.format? symbols v = some (Piece.renderAll symbols
        (.text ((F.layoutFor v).affixes v).before :: body ++
          [.text ((F.layoutFor v).affixes v).after])) := by
  have wellFormed := wellFormed_layoutFor h v
  have significance : (F.layoutFor v).significance := by
    rw [← wellFormed.significantMax_isSome, bound]
    rfl
  obtain ⟨fits, rfl⟩ := Binary64.roundSignificant?_eq_some_iff.mp rounded
  obtain ⟨body, eq⟩ : ∃ body, (F.layoutFor v).bodyPieces? (v.scale (F.layoutFor v).scale) =
      some body := by
    refine exists_body_layoutFor h ((Layout.inRange_iff_of_significant ?_
      (wellFormed.literal_eq_false (.inr significance)) plain significance).mpr ?_)
    · rw [scaled]
      rfl
    · rw [scaled, bound]
      exact Option.isSome_of_eq_some rounded
  refine ⟨body, ?_, fun symbols => format?_of_body symbols eq⟩
  rw [scaled] at eq
  exact Layout.length_significantDigits_le wellFormed (pad_layoutFor h v) plain bound hu ne range
    finite eq

theorem format?_of_roundsToDigits_of_grouped :
    let F := NumberFormat.ofSections (Pattern.ofTexts "#,#@@#" "#,#@@#".toList [])
    ∃ (hu : Representable (1234567 * Magnitude.one)) (r : Binary64),
      let v := Binary64.signed true (.finite _ hu)
      NumberFormat.compile "#,#@@#" = .ok F ∧
        v.scale (F.layoutFor v).scale = .signed true (.finite _ hu) ∧
        1234567 * Magnitude.one ≠ 0 ∧ (F.layoutFor v).exponential = false ∧
        (F.layoutFor v).significantMax = some 3 ∧
        Magnitude.RoundsToDigits (1234567 * Magnitude.one) 3 ∧
        (Binary64.signed false (.finite _ hu)).roundSignificant? (some 3) = some r ∧ r.isFinite ∧
        ∃ body, (significantDigits body).length ≤ 3 ∧ ∀ symbols, F.format? symbols v =
          some (Piece.renderAll symbols (.text "-" :: body ++ [.text ""])) := by
  intro F
  have compiled : NumberFormat.compile "#,#@@#" = .ok F :=
    compile_eq_ok (by decide) (by decide) (by decide) (by decide)
  have hu : Representable (1234567 * Magnitude.one) := Magnitude.representable_of_lt (by decide)
  have layout := layoutFor_of_single (F := F) rfl
  have value : Magnitude.toReal (1234567 * Magnitude.one) = 1234567 := Magnitude.toReal_mul_one _
  have range : Magnitude.RoundsToDigits (1234567 * Magnitude.one) 3 := by
    refine .few (by decide) ?_ ?_
    · rw [value]
      norm_num
    · rw [value]
      norm_num
  have ne : 1234567 * Magnitude.one ≠ 0 := Nat.mul_ne_zero (by decide) Magnitude.one_pos.ne'
  have finite : ((Magnitude.finite _ hu).roundSignificant (some 3)).isFinite :=
    Magnitude.isFinite_roundSignificant hu (by decide +kernel) _
  have fits : ∀ most ∈ some 3, (Magnitude.finite _ hu).PlaceFits most := by
    rintro _ ⟨⟩
    exact Magnitude.placeFits_of_lt _ (by decide)
  have rounded := Binary64.roundSignificant?_eq_some_iff.mpr ⟨fits, rfl⟩
  have scaled : (Binary64.signed true (.finite _ hu)).scale 1 = .signed true (.finite _ hu) :=
    Binary64.scale_one true hu
  refine ⟨hu, _, compiled, ?_, ne, ?_, ?_, range, rounded, finite, ?_⟩
  · rw [layout]
    exact scaled
  · rw [layout]
    decide
  · rw [layout]
    decide
  · have shown := format?_of_roundsToDigits compiled (v := .signed true (.finite _ hu))
      (by rw [layout]; exact scaled) ne (by rw [layout]; decide) (by rw [layout]; decide)
      range rounded finite
    rw [layout, Layout.affixes, if_pos (Binary64.isNegative_of_ne_zero ne hu)] at shown
    exact shown

/-- Far from one the powers of ten are inexact, and two significant digits become sixteen. -/
theorem format?_of_inexact_power :
    let F := NumberFormat.ofSections (Pattern.ofTexts "@@" "@@".toList [])
    let v := Binary64.ofBits 0x4656168e126c7b4d
    let units := 0x16168e126c7b4d * 2 ^ (1124 : ℕ)
    let body := [Piece.text "6999999999999999000000000000000"]
    NumberFormat.compile "@@" = .ok F ∧ F.zero = none ∧ F.layout.scale = 1 ∧
      F.layout.exponential = false ∧ F.layout.significantMax = some 2 ∧
      (∃ hu : Representable units, v = .signed false (.finite units hu) ∧
        ∃ r ∈ (Binary64.signed false (.finite units hu)).roundSignificant? (some 2), r.isFinite) ∧
      (∀ symbols, F.format? symbols v =
        some (Piece.renderAll symbols (.text "" :: body ++ [.text ""]))) ∧
      (significantDigits body).length = 16 := by
  intro F v units body
  have compiled : NumberFormat.compile "@@" = .ok F :=
    compile_eq_ok (by decide) (by decide) (by decide) (by decide)
  have pieces : F.pieces? v = some (.text "" :: body ++ [.text ""]) := by decide +kernel
  refine ⟨compiled, rfl, by decide, by decide, by decide, by decide +kernel, fun symbols => ?_,
    by decide +kernel⟩
  rw [F.format?_eq_map, pieces]
  rfl

end DecimalPattern
