import DecimalPattern.Proofs.Binary64.WholeNumbers
import DecimalPattern.Proofs.Format.Exponent
import DecimalPattern.Proofs.Format.Finite
import DecimalPattern.Proofs.Format.FixedDigits
import DecimalPattern.Proofs.Format.SignificantCount

/-! # Numbers without digits

A layout without integer digits drops a lone zero before the point, and optional digits of the
fraction are dropped too. Nothing is left of a number that is rounded to zero unless a digit is
required, and of any other number at least one digit is shown.
-/

namespace DecimalPattern

-- Powers of natural numbers are the built-in ones, also beside the monoids of algebra.
attribute [local instance (2000)] instPowNat

variable {p : String} {F : NumberFormat} {layout : Layout} {v : Binary64} {x : Magnitude}
  {units r n : ℕ} {hu : Representable units} {hr : Representable r} {body a b : List Piece}
  {source : String} {s : NumberSection} {negative : Option NumberSection} {sign : Bool}

/-! ## The digits of a number -/

/-- The pieces of a body up to its exponent. -/
def mantissaPieces (body : List Piece) : List Piece :=
  body.takeWhile (· != .symbol .exponentSymbol)

theorem mantissaPieces_of_not_mem (h : .symbol .exponentSymbol ∉ body) :
    mantissaPieces body = body := by
  apply List.takeWhile_eq_self_iff.mpr
  intro piece mem
  rw [bne_iff_ne]
  rintro rfl
  exact h mem

theorem mantissaPieces_append (h : .symbol .exponentSymbol ∉ a) :
    mantissaPieces (a ++ .symbol .exponentSymbol :: b) = a := by
  have front : ∀ piece ∈ a, (piece != .symbol .exponentSymbol) = true :=
    List.takeWhile_eq_self_iff.mp (mantissaPieces_of_not_mem h)
  rw [mantissaPieces, List.takeWhile_append_of_pos front]
  simp

namespace Layout

/-- The rounded value whose digits are shown. -/
def rounded? (layout : Layout) (x : Binary64) : Option Binary64 :=
  if layout.exponential then do
    let s ← layout.scientific? x
    let shifted ← x.abs.shift? (← word? (-s.exponent))
    shifted.abs.roundSignificant? (layout.integerMax.map (· + layout.fractionMax))
  else if layout.significance then x.abs.roundSignificant? layout.significantMax
  else x.abs.roundHalfEven? (Int32.ofNat layout.fractionMax)

/-- The magnitude whose digits are shown. -/
def rounded (layout : Layout) (x : Magnitude) : Magnitude :=
  if layout.exponential then (x.shift (-(layout.scientific x).exponent)).roundSignificant
    (layout.integerMax.map (· + layout.fractionMax))
  else if layout.significance then x.roundSignificant layout.significantMax
  else x.roundHalfEven (placesOfCount layout.fractionMax)

/-- What is shown on either side of the point. -/
def numeral (layout : Layout) (x : Magnitude) : Numeral :=
  if layout.exponential then (layout.scientific x).mantissa
  else if layout.significance then
    significantNumeral x layout.significantMin layout.significantMax layout.pad
  else layout.fixedNumeral x

theorem shownDigits_scientificPieces (s : Scientific) :
    shownDigits (mantissaPieces (layout.scientificPieces s)) = s.mantissa.chars := by
  have mantissa : .symbol .exponentSymbol ∉
      .ofDigits s.mantissa.integer :: fractionPieces s.mantissa.fraction := by
    intro mem
    cases symbol_mem_fractionPieces (List.mem_of_ne_of_mem (Piece.symbol_ne_ofDigits _) mem)
  rw [scientificPieces, mantissaPieces_append mantissa, ← List.singleton_append,
    shownDigits_append, shownDigits_ofDigits, shownDigits_fractionPieces, Numeral.chars]

/-- The digits before the exponent are those of the numeral. -/
theorem shownDigits_of_bodyPieces? (finite : (Binary64.signed sign x).isFinite)
    (literal : layout.literal = false)
    (eq : layout.bodyPieces? (.signed sign x) = some body) :
    shownDigits (mantissaPieces body) = (layout.numeral x).chars := by
  rw [numeral]
  by_cases exponential : layout.exponential
  · rw [bodyPieces?_of_exponential finite literal exponential] at eq
    obtain ⟨s, run, rfl⟩ := Option.map_eq_some_iff.mp eq
    rw [if_pos exponential, scientific?_eq_some run]
    exact shownDigits_scientificPieces _
  have absent : .symbol .exponentSymbol ∉ body := by
    have count := (body_of_bodyPieces? eq).count_exponent
    rw [if_neg (by simp [exponential])] at count
    exact List.count_eq_zero.mp count
  rw [Bool.not_eq_true] at exponential
  rw [mantissaPieces_of_not_mem absent, exponential]
  cases significance : layout.significance with
  | true =>
    rw [bodyPieces?_of_significant finite literal exponential significance] at eq
    obtain ⟨n, run, eq⟩ := Option.bind_eq_some_iff.mp eq
    obtain ⟨-, rfl⟩ := splitSignificant?_eq_some_iff.mp run
    exact shownDigits_positionalPieces eq
  | false =>
    rw [bodyPieces?_of_fixed finite literal exponential significance] at eq
    obtain ⟨n, run, eq⟩ := Option.bind_eq_some_iff.mp eq
    obtain ⟨-, rfl⟩ := formatFixed?_eq_some_iff.mp run
    exact shownDigits_positionalPieces eq

/-- A number can be rounded where no number on the way leaves the 32-bit range. -/
theorem isSome_rounded?_iff {x : Binary64} (finite : x.isFinite)
    (literal : layout.literal = false) : (layout.rounded? x).isSome ↔ layout.InRange x := by
  rw [rounded?]
  split_ifs with exponential significance
  · rw [inRange_iff_of_exponential finite literal exponential]
    cases run : layout.scientific? x with
    | none => rfl
    | some s =>
      obtain ⟨n, shown, -⟩ := exists_mantissa run
      obtain ⟨places, word, shown⟩ := Option.bind_eq_some_iff.mp shown
      obtain ⟨shifted, moved, shown⟩ := Option.bind_eq_some_iff.mp shown
      have rounds := isSome_splitSignificant?_iff.mp (Option.isSome_of_eq_some shown)
      simp [word, moved, rounds]
  · exact (inRange_iff_of_significant finite literal (by simpa using exponential)
      significance).symm
  · exact (inRange_iff_of_fixed finite literal (by simpa using exponential)
      (by simpa using significance)).symm

theorem rounded?_eq_some {r : Binary64} (eq : layout.rounded? (.signed sign x) = some r) :
    .signed false (layout.rounded x) = r := by
  rw [rounded?] at eq
  rw [rounded]
  split_ifs at eq ⊢
  · obtain ⟨s, run, eq⟩ := Option.bind_eq_some_iff.mp eq
    obtain ⟨places, word, eq⟩ := Option.bind_eq_some_iff.mp eq
    obtain ⟨range, rfl⟩ := word?_eq_some_iff.mp word
    rw [Binary64.abs, Binary64.shift?_eq x range.1 range.2] at eq
    rw [scientific?_eq_some run]
    exact (Binary64.roundSignificant?_eq_some_iff.mp eq).2
  · exact (Binary64.roundSignificant?_eq_some_iff.mp eq).2
  · rw [Binary64.abs, Binary64.roundHalfEven?_ofNat, Option.ite_none_left_eq_some,
      Option.some_inj] at eq
    exact eq.2

theorem mantissa_scientific (layout : Layout) (x : Magnitude) : (layout.scientific x).mantissa =
    layout.trimInteger (layout.mantissaAt x (layout.scientific x).exponent) := by
  rw [scientific]
  dsimp only
  split_ifs <;> rfl

end Layout

/-! ## Digits of rounded numbers -/

theorem digits_eq_zero_iff : digits n = ['0'] ↔ n = 0 := by
  constructor
  · intro eq
    have value := Nat.ofDigitChars_ten_toDigits (n := n)
    rw [← digits, eq] at value
    exact value.symm
  · rintro rfl
    rfl

namespace Magnitude

theorem integerPart_shortest_zero : (shortest 0).integerPart = 0 := by
  decide

/-- A number below one that is not zero has digits after the point. -/
theorem fraction_ne_nil (hr : Representable r) (ne : r ≠ 0) (small : (shortest r).integerPart = 0) :
    (finite r hr).numeral.fraction ≠ [] := by
  rw [numeral_finite, ← List.length_pos_iff, Decimal.numeral, Decimal.length_fractionDigits]
  refine Nat.pos_of_ne_zero fun places => ?_
  have pos := coefficient_shortest_pos hr ne
  rw [Decimal.integerPart, places, Nat.pow_zero, Nat.div_one] at small
  omega

end Magnitude

namespace Layout

theorem trimInteger_ne_nil_iff
    (kept : layout.integerMin = 0 → layout.fractionMin = 1 → r ≠ 0) :
    (layout.trimInteger (paddedNumeral (.finite r hr)
        (layout.integerMin + layout.fractionMin) layout.pad)).chars ≠ [] ↔
      0 < layout.integerMin ∨ 0 < layout.fractionMin ∨ r ≠ 0 := by
  have integer : (Magnitude.finite r hr).numeral.integer =
      digits (Magnitude.shortest r).integerPart := by
    rw [Magnitude.numeral_finite, Decimal.numeral]
  simp only [trimInteger, paddedNumeral, integer, digits_eq_zero_iff]
  split_ifs with trimmed
  · obtain ⟨none, small⟩ := trimmed
    rw [Numeral.chars, List.nil_append]
    by_cases zero : r = 0
    · subst zero
      have numeral : (Magnitude.finite 0 hr).numeral = ⟨['0'], []⟩ := by
        rw [Magnitude.numeral_finite]
        decide
      have count : (⟨['0'], []⟩ : Numeral).significantCount = 1 := by decide
      have := kept none
      rw [numeral, count, List.nil_append, none, ne_eq, List.replicate_eq_nil_iff]
      omega
    · have shown := Magnitude.fraction_ne_nil hr zero small
      simp [shown, zero]
  · have shown := digits_ne_nil (Magnitude.shortest r).integerPart
    have nonzero : 0 < layout.integerMin ∨ r ≠ 0 := by
      by_contra h
      obtain ⟨none, zero⟩ := not_or.mp h
      obtain rfl := not_not.mp zero
      exact trimmed ⟨by omega, Magnitude.integerPart_shortest_zero⟩
    simp only [Numeral.chars, ne_eq, List.append_eq_nil_iff, shown, false_and, not_false_eq_true,
      true_iff]
    tauto

theorem fixedInteger_ne_nil_iff (unbounded : layout.integerMax = none) :
    layout.fixedInteger (.finite r hr) ≠ [] ↔ 0 < layout.integerMin ∨ Magnitude.one ≤ r := by
  have floor : (Magnitude.finite r hr).floor? = some 0 ↔ r < Magnitude.one := by
    rw [Magnitude.floor?, Option.some_inj, Nat.div_eq_zero_iff_lt Magnitude.one_pos]
  have shown : (Magnitude.finite r hr).numeral.integer ≠ [] := by
    rw [Magnitude.numeral_finite]
    exact digits_ne_nil _
  simp only [fixedInteger_eq_leftpad, unbounded, floor]
  split_ifs with dropped
  · simp only [ne_eq, not_true_eq_false, false_iff]
    omega
  · simp only [List.leftpad, ne_eq, List.append_eq_nil_iff, shown, and_false, not_false_eq_true,
      true_iff]
    omega

theorem fixedFraction_ne_nil_iff (pad : layout.pad = '0') :
    layout.fixedFraction x (.finite r hr) ≠ [] ↔ 0 < layout.fractionMin ∨
      ¬ x.isWhole ∧ 0 < layout.fractionMax ∧ (Magnitude.finite r hr).numeral.fraction ≠ [] := by
  by_cases whole : x.isWhole
  · rw [fixedFraction_eq_padRight, if_pos whole]
    simp [whole, Nat.pos_iff_ne_zero]
  · rw [fixedFraction_of_not_isWhole pad whole]
    simp only [← List.length_pos_iff, List.length_rightpad, List.length_take, whole,
      Bool.false_eq_true, not_false_eq_true, true_and]
    omega

theorem fixedNumeral_ne_nil_iff (unbounded : layout.integerMax = none) (pad : layout.pad = '0')
    (eq : (Magnitude.finite units hu).roundHalfEven (placesOfCount layout.fractionMax) =
      .finite r hr) :
    (layout.fixedNumeral (.finite units hu)).chars ≠ [] ↔
      0 < layout.integerMin ∨ 0 < layout.fractionMin ∨ r ≠ 0 := by
  rw [fixedNumeral, eq, Numeral.chars, ne_eq, List.append_eq_nil_iff, not_and_or]
  dsimp only
  rw [← ne_eq, ← ne_eq, fixedInteger_ne_nil_iff unbounded, fixedFraction_ne_nil_iff pad]
  constructor
  · rintro ((required | large) | required | ⟨-, -, shown⟩)
    · exact .inl required
    · exact .inr (.inr (Nat.pos_iff_ne_zero.mp (Nat.lt_of_lt_of_le Magnitude.one_pos large)))
    · exact .inr (.inl required)
    · refine .inr (.inr ?_)
      rintro rfl
      exact shown (by rw [Magnitude.numeral_finite]; decide)
  · rintro (required | required | nonzero)
    · exact .inl (.inl required)
    · exact .inr (.inl required)
    · rcases Nat.lt_or_ge r Magnitude.one with small | large
      · -- A fraction below one is neither a rounded whole number nor rounded to no places.
        have absurdly : ¬ (placesOfCount layout.fractionMax = 0 ∨ Magnitude.one ∣ units) := by
          intro whole
          rcases Magnitude.eq_zero_or_le_of_roundHalfEven whole eq with zero | large
          · exact nonzero zero
          · omega
        refine .inr (.inr ⟨fun whole => ?_, ?_, ?_⟩)
        · exact absurdly (.inr (Magnitude.isWhole_iff.mp whole))
        · refine Nat.pos_of_ne_zero fun none => absurdly (.inl ?_)
          rw [none]
          rfl
        · apply Magnitude.fraction_ne_nil hr nonzero
          apply (Magnitude.floor?_eq_some_zero_iff (h := hr)).mp
          rw [Magnitude.floor?, Nat.div_eq_of_lt small]
      · exact .inl (.inr large)

/-- At least one digit is shown unless none is required and the number is rounded to zero. -/
theorem numeral_ne_nil_iff (h : layout.WellFormed) (pad : layout.pad = '0')
    (first : layout.significance → 0 < layout.integerMin)
    (eq : layout.rounded (.finite units hu) = .finite r hr)
    (kept : layout.exponential → layout.integerMin = 0 → layout.fractionMin = 1 → r ≠ 0) :
    (layout.numeral (.finite units hu)).chars ≠ [] ↔
      0 < layout.integerMin ∨ 0 < layout.fractionMin ∨ r ≠ 0 := by
  rw [rounded] at eq
  rw [numeral]
  by_cases exponential : layout.exponential
  · rw [if_pos exponential] at eq ⊢
    rw [mantissa_scientific, mantissaAt]
    have padded : significantNumeral ((Magnitude.finite units hu).shift
        (-(layout.scientific (.finite units hu)).exponent)) (layout.integerMin + layout.fractionMin)
        (layout.integerMax.map (· + layout.fractionMax)) layout.pad = paddedNumeral (.finite r hr)
          (layout.integerMin + layout.fractionMin) layout.pad := by
      rw [significantNumeral, eq, paddedNumeral]
    rw [padded]
    exact trimInteger_ne_nil_iff (kept exponential)
  rw [if_neg exponential] at eq ⊢
  split_ifs at eq ⊢ with significance
  · have shown : (significantNumeral (.finite units hu) layout.significantMin
        layout.significantMax layout.pad).integer ≠ [] := by
      rw [significantNumeral, eq, paddedNumeral, Magnitude.numeral_finite]
      exact digits_ne_nil _
    simp [Numeral.chars, shown, first significance]
  · have unbounded : layout.integerMax = none := by
      rw [← Option.not_isSome_iff_eq_none, h.integerMax_isSome]
      simp [exponential, significance]
    exact fixedNumeral_ne_nil_iff unbounded pad eq

theorem isDecimal_numeral (pad : layout.pad = '0') (finite : (layout.rounded x).isFinite) :
    (layout.numeral x).IsDecimal := by
  rw [rounded] at finite
  rw [numeral]
  split_ifs at finite ⊢
  · rw [mantissa_scientific, mantissaAt, pad]
    exact isDecimal_trimInteger (.significant _ finite)
  · rw [pad]
    exact .significant _ finite
  · exact .fixed pad finite

end Layout

/-! ## Formats -/

theorem Core.Regular.integerMin_pos (h : s.core.Regular)
    (significance : (Layout.ofSections source s negative).significance) :
    0 < (Layout.ofSections source s negative).integerMin := by
  have significance : s.core.parts.hasSignificance := significance
  have nonempty : s.core.parts.integer ≠ [] := by
    intro empty
    have fraction := h.fraction_eq_nil significance
    simp [Parts.hasSignificance, empty, fraction] at significance
  have shown : s.core.parts.integer.isEmpty = false := by simpa using nonempty
  dsimp only [Layout.ofSections]
  rw [shown]
  split_ifs
  · decide
  · contradiction
  · exact Nat.lt_of_lt_of_le Nat.one_pos (le_max_left _ _)

theorem integerMin_layoutFor_pos (h : NumberFormat.compile p = .ok F) (v : Binary64)
    (significance : (F.layoutFor v).significance) : 0 < (F.layoutFor v).integerMin := by
  obtain ⟨P, source, s, negative, parsed, mem, eq⟩ := exists_section_layoutFor h v
  obtain ⟨P', parsed', keeps, -⟩ := compile_eq_ok_iff.mp h
  obtain rfl := Except.ok.inj (parsed.symm.trans parsed')
  rw [eq] at significance ⊢
  exact (regular_of_mem_checked parsed keeps mem).integerMin_pos significance

/-- A finite number shows a digit where one is required, and otherwise unless it is rounded to
zero. It has a text exactly if it can be rounded, as it can be under a short pattern. -/
theorem format?_shows_digit (h : NumberFormat.compile p = .ok F)
    (scaled : v.scale (F.layoutFor v).scale = .signed sign (.finite units hu))
    (literal : (F.layoutFor v).literal = false) :
    let layout := F.layoutFor v
    let rounding := layout.rounded? (.signed sign (.finite units hu))
    (p.length < 2 ^ (30 : ℕ) → rounding.isSome) ∧
    (∀ symbols, (F.format? symbols v).isSome ↔ rounding.isSome) ∧
    ∀ r, rounding = some r → r.isFinite →
      (layout.exponential → layout.integerMin = 0 → layout.fractionMin = 1 → ¬ r.isZero) →
      ∃ body, (∀ symbols, F.format? symbols v = some (Piece.renderAll symbols
          (.text (layout.affixes v).before :: body ++ [.text (layout.affixes v).after]))) ∧
        AllDigits (shownDigits (mantissaPieces body)) ∧
        (shownDigits (mantissaPieces body) ≠ [] ↔
          0 < layout.integerMin ∨ 0 < layout.fractionMin ∨ ¬ r.isZero) := by
  intro layout rounding
  have range : rounding.isSome ↔ layout.InRange (.signed sign (.finite units hu)) :=
    Layout.isSome_rounded?_iff rfl literal
  refine ⟨fun short => range.mpr (inRange_of_short h short v _), fun symbols => ?_,
    fun r rounded finite kept => ?_⟩
  · rw [isSome_format?_iff h, scaled, range]
  obtain ⟨body, eq⟩ := exists_body_layoutFor h (range.mp (Option.isSome_of_eq_some rounded))
  have pad : layout.pad = '0' := pad_layoutFor h v
  have shown := Layout.shownDigits_of_bodyPieces? rfl literal eq
  obtain rfl := Layout.rounded?_eq_some rounded
  refine ⟨body, fun symbols => format?_of_body symbols (by rw [scaled]; exact eq), ?_, ?_⟩
  · have decimal := Layout.isDecimal_numeral pad finite
    rw [shown]
    exact decimal.integer.append decimal.fraction
  · cases rounded : layout.rounded (.finite units hu) with
    | infinite =>
      rw [rounded] at finite
      exact absurd finite Bool.false_ne_true
    | finite r hr =>
      rw [rounded] at kept
      have zero : (Binary64.signed false (.finite r hr)).isZero ↔ r = 0 := by
        rw [Binary64.isZero, Magnitude.isZero, beq_iff_eq]
      rw [zero] at kept ⊢
      rw [shown]
      exact Layout.numeral_ne_nil_iff (wellFormed_layoutFor h v) pad
        (integerMin_layoutFor_pos h v) rounded kept

/-- Three quarters are rounded to themselves, and the lone zero is dropped. -/
theorem format?_shows_digit_of_three_quarters :
    let F := NumberFormat.ofSections (Pattern.ofTexts ".##" ".##".toList [])
    ∃ hu : Representable (3 * 2 ^ (1072 : ℕ)),
      let v := Binary64.signed false (.finite _ hu)
      NumberFormat.compile ".##" = .ok F ∧ v.scale (F.layoutFor v).scale = v ∧
        (F.layoutFor v).literal = false ∧ (F.layoutFor v).rounded? v = some v ∧ v.isFinite ∧
        ¬ v.isZero ∧
        ∃ body, (∀ symbols, F.format? symbols v = some (Piece.renderAll symbols
            (.text "" :: body ++ [.text ""]))) ∧
          AllDigits (shownDigits (mantissaPieces body)) ∧
          shownDigits (mantissaPieces body) ≠ [] := by
  intro F
  have compiled : NumberFormat.compile ".##" = .ok F :=
    compile_eq_ok (by decide) (by decide) (by decide) (by decide)
  have hu : Representable (3 * 2 ^ (1072 : ℕ)) := by decide +kernel
  have rounded : ∀ hu : Representable (3 * 2 ^ (1072 : ℕ)),
      F.layout.rounded? (.signed false (.finite _ hu)) = some (.signed false (.finite _ hu)) := by
    decide +kernel
  have nonzero : ∀ hu, ¬ (Binary64.signed false (.finite (3 * 2 ^ (1072 : ℕ)) hu)).isZero := by
    decide +kernel
  have layout := layoutFor_of_single (F := F) rfl (.signed false (.finite _ hu))
  have scaled := Binary64.scale_one false hu
  refine ⟨hu, compiled, ?_⟩
  obtain ⟨-, -, shows⟩ := format?_shows_digit compiled (by rw [layout]; exact scaled)
    (by rw [layout]; decide)
  rw [layout] at shows ⊢
  obtain ⟨body, text, decimal, shown⟩ := shows _ (rounded hu) rfl fun _ _ _ => nonzero hu
  exact ⟨scaled, by decide, rounded hu, rfl, nonzero hu, body, text, decimal,
    shown.mpr (.inr (.inr (nonzero hu)))⟩

/-- Zero without an integer digit and with an optional one after the point. -/
theorem format?_of_zero_shows_nothing :
    let F := NumberFormat.ofSections (Pattern.ofTexts ".#" ".#".toList [])
    let v := Binary64.signed false .zero
    NumberFormat.compile ".#" = .ok F ∧ (v.scale (F.layoutFor v).scale).isFinite ∧
      (F.layoutFor v).literal = false ∧ ∀ symbols, F.format? symbols v = some "" := by
  intro F v
  have compiled : NumberFormat.compile ".#" = .ok F :=
    compile_eq_ok (by decide) (by decide) (by decide) (by decide)
  have pieces : F.pieces? v = some [.text "", .text "", .text ""] := by decide +kernel
  refine ⟨compiled, by decide +kernel, by decide +kernel, fun symbols => ?_⟩
  rw [F.format?_eq_map, pieces]
  rfl

end DecimalPattern
