import DecimalPattern.Proofs.Format.Significant

/-! # Zeros up to some significant digits

Zeros at the end of the fraction bring a rounded number to the least count of significant digits,
whether its shortest decimal has an integer part or leading zeros after the point, and for zero. The
numeral is still read as the rounded number.
-/

namespace DecimalPattern

-- Powers of natural numbers are the built-in ones, also beside the monoids of algebra.
attribute [local instance (2000)] instPowNat

variable {units r least : ℕ} {most : Option ℕ} {hu : Representable units} {hr : Representable r}
  {ds : List Char} {d : Decimal} {layout : Layout} {pieces : List Piece}

/-- The digits that count: of zero all, of other numbers those from the first that is not zero. -/
def countedDigits (units : ℕ) (ds : List Char) : List Char :=
  if units = 0 then ds else ds.dropWhile (· == '0')

namespace Numeral

/-- The magnitude that a numeral is read as. -/
def read (n : Numeral) : Magnitude :=
  .round (Nat.ofDigitChars 10 n.chars 0 * Magnitude.one) (10 ^ n.fraction.length)

end Numeral

/-! ## Values of digits -/

namespace Decimal

theorem chars_filled (d : Decimal) (least : ℕ) : (d.filled least).chars =
    d.numeral.chars ++ List.replicate (least - d.numeral.significantCount) '0' :=
  (List.append_assoc _ _ _).symm

theorem read_filled (d : Decimal) (least : ℕ) :
    (d.filled least).read = .round (d.coefficient * Magnitude.one) (10 ^ d.places) := by
  have length : (d.filled least).fraction.length =
      d.places + (least - d.numeral.significantCount) := by
    rw [filled, List.length_append, List.length_replicate, numeral, length_fractionDigits]
  rw [Numeral.read, chars_filled, length, Nat.ofDigitChars_append, ofDigitChars_numeral,
    Nat.ofDigitChars_replicate_zero]
  refine Magnitude.round_congr (Nat.pow_pos (by decide)) (Nat.pow_pos (by decide)) ?_
  rw [Nat.pow_add]
  ring

end Decimal

/-! ## Rounded numbers -/

/-- A numeral that shows the shortest decimal of a magnitude and after it as many zeros as there are
digits missing. -/
structure Numeral.Fills (n : Numeral) (hr : Representable r) (least : ℕ) : Prop where
  decimal : n.IsDecimal
  length : (countedDigits r n.chars).length =
    max least (countedDigits r (Magnitude.finite r hr).numeral.chars).length
  zeros : ∃ k, n = { (Magnitude.finite r hr).numeral with
    fraction := (Magnitude.finite r hr).numeral.fraction ++ List.replicate k '0' }
  read : n.read = .finite r hr

namespace Magnitude

theorem significantCount_shortest (h : Representable r) :
    (shortest r).numeral.significantCount =
      (countedDigits r (shortest r).numeral.chars).length := by
  by_cases zero : r = 0
  · subst zero
    decide
  · have pos := List.length_pos_iff.mpr
      (Decimal.leading_ne_nil (coefficient_shortest_pos h zero))
    rw [countedDigits, if_neg zero, Numeral.significantCount]
    exact max_eq_right pos

/-- Zeros at the end count once there is a digit before them that counts. -/
theorem countedDigits_filled (h : Representable r) (least : ℕ) :
    countedDigits r ((shortest r).filled least).chars =
      countedDigits r (shortest r).numeral.chars ++
        List.replicate (least - (shortest r).numeral.significantCount) '0' := by
  rw [Decimal.chars_filled, countedDigits, countedDigits]
  split_ifs with zero
  · rfl
  · have shown := Decimal.leading_ne_nil (coefficient_shortest_pos h zero)
    rw [List.dropWhile_append, if_neg (by rwa [List.isEmpty_iff])]

theorem fills_filled (h : Representable r) (least : ℕ) :
    ((shortest r).filled least).Fills h least where
  decimal :=
    have shown := (shortest r).isDecimal_numeral
    ⟨shown.integer, shown.fraction.append (.replicate_zero _)⟩
  length := by
    rw [numeral_finite, countedDigits_filled h, List.length_append, List.length_replicate,
      significantCount_shortest h]
    omega
  zeros := ⟨_, by rw [numeral_finite]; rfl⟩
  read := by
    rw [Decimal.read_filled, round_eq_finite_iff]
    exact nearestUnits_shortest h

theorem fills_significantNumeral
    (rounded : (finite units hu).roundSignificant most = finite r hr) :
    (significantNumeral (finite units hu) least most '0').Fills hr least := by
  rw [significantNumeral, rounded, paddedNumeral, numeral_finite]
  exact fills_filled hr least

end Magnitude

namespace Layout

theorem shownDigits_positionalPieces {n : Numeral} (eq : layout.positionalPieces? n = some pieces) :
    shownDigits pieces = n.chars := by
  obtain ⟨integer, cut, rfl⟩ := Option.map_eq_some_iff.mp eq
  rw [shownDigits_append, (shownDigits_integerPieces cut).1, shownDigits_fractionPieces,
    Numeral.chars]

/-- Significant digits without an exponent. -/
structure IsSignificant (layout : Layout) (least : ℕ) (most : Option ℕ) : Prop where
  exponential : layout.exponential = false
  significance : layout.significance
  least : layout.significantMin = least
  most : layout.significantMax = most

theorem IsSignificant.bodyPieces?_eq (significant : layout.IsSignificant least most)
    (h : layout.WellFormed) (pad : layout.pad = '0') {x : Binary64} (finite : x.isFinite) :
    layout.bodyPieces? x = (splitSignificant? x least most '0').bind layout.positionalPieces? := by
  rw [bodyPieces?_of_significant finite (h.literal_eq_false (.inr significant.significance))
    significant.exponential significant.significance, significant.least, significant.most, pad]

end Layout

/-! ## Formats -/

/-- A number is shown with at least the required significant digits. Those that its rounded value
does not have are zeros after the fraction. -/
theorem format?_of_isSignificant {least : ℕ} {most : Option ℕ}
    (rounded : (Binary64.signed false (.finite units hu)).roundSignificant? most =
      some (.signed false (.finite r hr))) :
    ∃ n : Numeral,
      (∀ negative,
        splitSignificant? (.signed negative (.finite units hu)) least most '0' = some n) ∧
      n.Fills hr least ∧ ∀ {p F v negative}, NumberFormat.compile p = .ok F →
        (F.layoutFor v).IsSignificant least most →
        v.scale (F.layoutFor v).scale = .signed negative (.finite units hu) →
        ∃ body, shownDigits body = n.chars ∧ least ≤ (countedDigits r (shownDigits body)).length ∧
          ∀ symbols, F.format? symbols v = some (Piece.renderAll symbols
            (.text ((F.layoutFor v).affixes v).before :: body ++
              [.text ((F.layoutFor v).affixes v).after])) := by
  obtain ⟨fits, eq⟩ := Binary64.roundSignificant?_eq_some_iff.mp rounded
  have fills : (significantNumeral (.finite units hu) least most '0').Fills hr least :=
    Magnitude.fills_significantNumeral (Binary64.signed.inj eq).2
  have run negative : splitSignificant? (.signed negative (.finite units hu)) least most '0' =
      some (significantNumeral (.finite units hu) least most '0') :=
    splitSignificant?_eq_some_iff.mpr ⟨fits, rfl⟩
  refine ⟨_, run, fills, fun {p F v negative} h significant scaled => ?_⟩
  obtain ⟨groups, -, body⟩ :=
    (F.layoutFor v).exists_positionalPieces (narrow_of_splitSignificant? (run negative))
  have shown := Layout.shownDigits_positionalPieces body
  refine ⟨_, shown, ?_, fun symbols => format?_of_body symbols ?_⟩
  · rw [shown, fills.length]
    exact le_max_left _ _
  · rw [scaled, significant.bodyPieces?_eq (wellFormed_layoutFor h v) (pad_layoutFor h v) rfl,
      run]
    exact body

/-- Rounding shortens the fraction, and the zeros make up for it. -/
theorem format?_of_isSignificant_of_carry :
    let F := NumberFormat.ofSections (Pattern.ofTexts "@@@" "@@@".toList [])
    ∃ (hu : Representable (0x665BEA0BA1F4B * 2 ^ (1020 : ℕ)))
      (hr : Representable (0x1999999999999A * 2 ^ (1018 : ℕ))),
      let v := Binary64.signed false (.finite _ hu)
      let n : Numeral := ⟨['0'], "100".toList⟩
      v.roundSignificant? (some 3) = some (.signed false (.finite _ hr)) ∧
        splitSignificant? v 3 (some 3) '0' = some n ∧ n.Fills hr 3 ∧
        NumberFormat.compile "@@@" = .ok F ∧ (F.layoutFor v).IsSignificant 3 (some 3) ∧
        v.scale (F.layoutFor v).scale = v ∧
        ∃ body, shownDigits body = n.chars ∧
          3 ≤ (countedDigits (0x1999999999999A * 2 ^ (1018 : ℕ)) (shownDigits body)).length ∧
          ∀ symbols, F.format? symbols v =
            some (Piece.renderAll symbols (.text "" :: body ++ [.text ""])) := by
  intro F
  have compiled : NumberFormat.compile "@@@" = .ok F :=
    compile_eq_ok (by decide) (by decide) (by decide) (by decide)
  obtain ⟨hu, hr⟩ : Representable (0x665BEA0BA1F4B * 2 ^ (1020 : ℕ)) ∧
      Representable (0x1999999999999A * 2 ^ (1018 : ℕ)) := by decide +kernel
  have rounded : ∀ hu hr, (Binary64.signed false (.finite (0x665BEA0BA1F4B * 2 ^ (1020 : ℕ))
      hu)).roundSignificant? (some 3) =
        some (.signed false (.finite (0x1999999999999A * 2 ^ (1018 : ℕ)) hr)) := by decide +kernel
  have numeral : ∀ hu, splitSignificant? (.signed false (.finite (0x665BEA0BA1F4B * 2 ^ (1020 : ℕ))
      hu)) 3 (some 3) '0' = some ⟨['0'], "100".toList⟩ := by decide +kernel
  have layout := layoutFor_of_single (F := F) rfl (.signed false (.finite _ hu))
  have significant : F.layout.IsSignificant 3 (some 3) :=
    ⟨by decide, by decide, by decide, by decide⟩
  have scaled := Binary64.scale_one false hu
  rw [← layout] at significant
  obtain ⟨n, run, fills, shown⟩ := @format?_of_isSignificant _ _ hu hr 3 _ (rounded hu hr)
  obtain rfl := Option.some.inj ((run false).symm.trans (numeral hu))
  obtain ⟨body, chars, count, text⟩ := shown compiled significant (by rw [layout]; exact scaled)
  refine ⟨hu, hr, rounded hu hr, numeral hu, fills, compiled, significant,
    by rw [layout]; exact scaled, body, chars, count, fun symbols => ?_⟩
  rw [text, layout]
  rfl

end DecimalPattern
