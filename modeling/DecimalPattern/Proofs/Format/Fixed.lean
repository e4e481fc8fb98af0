import DecimalPattern.Proofs.Binary64.HalfEven
import DecimalPattern.Proofs.Format.Range

/-! # Numbers that need no rounding

Fixed notation rounds a number by way of its product with a power of ten. The detour changes
nothing for a decimal that fits into the places of the layout and has few digits, and the number is
shown with the digits of its shortest decimal. Near `2 ^ 53` it can change even a whole number.
-/

namespace DecimalPattern

-- Powers of natural numbers are the built-in ones, also beside the monoids of algebra.
attribute [local instance (2000)] instPowNat

variable {p : String} {F : NumberFormat} {layout : Layout} {x : Magnitude}
  {units places : ℕ}

/-! ## Decimals that rounding leaves alone -/

/-- A decimal that has no digits beyond the places, and so few in all that its product with the
power of ten is exact to a quarter, or wholly so if it has no fraction. -/
structure Decimal.Fits (d : Decimal) (places : ℕ) : Prop where
  le : d.places ≤ places
  few : places = 0 ∨ places ≤ 22 ∧ (d.coefficient * 10 ^ (places - d.places) < 2 ^ (51 : ℕ) ∨
    d.places = 0 ∧ d.coefficient * 10 ^ places < 2 ^ (53 : ℕ))

namespace Magnitude

theorem roundHalfEven_of_fits (h : Representable units) (fits : (shortest units).Fits places) :
    (finite units h).roundHalfEven places = finite units h := by
  have nearest := nearestUnits_shortest h
  obtain ⟨le, zero | ⟨few, small | ⟨whole, small⟩⟩⟩ := fits
  · have dvd : one ∣ units := (places_shortest_eq_zero_iff h).mp (by omega)
    rw [roundHalfEven, if_pos (by omega),
      nearestInteger_of_whole (Nat.div_mul_cancel dvd).symm]
  · refine roundHalfEven_of_few few small ?_
    refine (nearestUnits_congr (Nat.pow_pos (by decide)) (Nat.pow_pos (by decide)) ?_).trans nearest
    rw [Nat.mul_right_comm _ _ one, Nat.mul_assoc, ← Nat.pow_add, Nat.sub_add_cancel le]
  · refine roundHalfEven_of_whole few small ?_
    have le := Nat.le_mul_of_pos_right (shortest units).coefficient
      (Nat.pow_pos (n := places) (show 0 < 10 by decide))
    have precise := precise_mul_one (Nat.le_trans le small.le)
    rw [whole, Nat.pow_zero] at nearest
    have exact := nearestUnits_of_precise Nat.one_pos precise
    rw [Nat.mul_one, nearest] at exact
    exact exact

theorem floor?_eq_some_zero_iff {h : Representable units} :
    (finite units h).floor? = some 0 ↔ (shortest units).integerPart = 0 := by
  have reached := ten_pow_le_integerPart_iff h (Nat.zero_le 22)
  rw [Nat.pow_zero, Nat.one_mul] at reached
  rw [floor?, Option.some_inj, Nat.div_eq_zero_iff_lt one_pos]
  omega

end Magnitude

/-! ## Numerals -/

/-- The digits of a decimal with zeros up to the least counts. A lone zero before the point is
left out where no integer digit is required. -/
def Decimal.padded (d : Decimal) (integerMin fractionMin : ℕ) : Numeral where
  integer := if d.integerPart = 0 ∧ integerMin = 0 then []
    else (digits d.integerPart).leftpad integerMin '0'
  fraction := d.fractionDigits.rightpad fractionMin '0'

/-- The text of a numeral, with the separator before a fraction. -/
def Numeral.render (symbols : Symbols) (n : Numeral) : String :=
  String.ofList n.integer ++
    if n.fraction.isEmpty then "" else symbols.get .decimalSeparator ++ String.ofList n.fraction

theorem renderAll_numeral (symbols : Symbols) (n : Numeral) :
    Piece.renderAll symbols (.ofDigits n.integer :: fractionPieces n.fraction) =
      n.render symbols := by
  rw [Piece.renderAll_cons, Piece.render_ofDigits, renderAll_fractionPieces, Numeral.render]

/-- Fixed notation with neither groups nor an upper bound on the integer digits. -/
structure Layout.IsPlain (layout : Layout) : Prop where
  literal : layout.literal = false
  exponential : layout.exponential = false
  significance : layout.significance = false
  grouping : layout.grouping = false

namespace Layout.IsPlain

theorem fixedInteger_eq {h : Representable units} (unbounded : layout.integerMax = none)
    (zero : layout.pad = '0') : layout.fixedInteger (.finite units h) =
      if (Magnitude.shortest units).integerPart = 0 ∧ layout.integerMin = 0 then []
      else (digits (Magnitude.shortest units).integerPart).leftpad layout.integerMin '0' := by
  simp only [Layout.fixedInteger_eq_leftpad, Magnitude.floor?_eq_some_zero_iff, unbounded, zero,
    Magnitude.numeral_finite, Decimal.numeral]

theorem fixedFraction_eq {h : Representable units} (zero : layout.pad = '0')
    (le : (Magnitude.shortest units).places ≤ layout.fractionMax) :
    layout.fixedFraction (.finite units h) (.finite units h) =
      (Magnitude.shortest units).fractionDigits.rightpad layout.fractionMin '0' := by
  have length := (Magnitude.shortest units).length_fractionDigits
  rw [Layout.fixedFraction_eq_padRight]
  split_ifs with whole
  · rw [Magnitude.isWhole_iff, ← Magnitude.places_shortest_eq_zero_iff h, ← length] at whole
    rw [List.eq_nil_of_length_eq_zero whole]
    simp [List.rightpad]
  · rw [Magnitude.numeral_finite, Decimal.numeral, List.take_of_length_le (length.trans_le le),
      zero, padRight_zero (Decimal.allDigits_fractionDigits _).narrow]

theorem bodyPieces?_eq {h : Representable units} (plain : layout.IsPlain)
    (unbounded : layout.integerMax = none) (zero : layout.pad = '0')
    (fits : (Magnitude.shortest units).Fits layout.fractionMax) (a : Bool) :
    let numeral := (Magnitude.shortest units).padded layout.integerMin layout.fractionMin
    layout.bodyPieces? (.signed a (.finite units h)) =
      some (.ofDigits numeral.integer :: fractionPieces numeral.fraction) := by
  intro numeral
  have few := fits.few
  have rounded := Binary64.roundHalfEven?_ofNat_of_lt (.finite units h)
    (show layout.fractionMax < 2 ^ (31 : ℕ) by omega)
  rw [Magnitude.roundHalfEven_of_fits h fits] at rounded
  have shown : layout.formatFixed? (.signed a (.finite units h)) = some numeral := by
    rw [Layout.formatFixed?_of_rounded rounded, fixedInteger_eq unbounded zero,
      fixedFraction_eq zero fits.le]
    rfl
  rw [Layout.bodyPieces?_of_fixed rfl plain.literal plain.exponential plain.significance, shown]
  simp [Layout.positionalPieces?, Layout.integerPieces?, plain.grouping]

end Layout.IsPlain

/-! ## Formats -/

/-- A plain format without scaling and without a form of its own for zero. -/
structure NumberFormat.IsPlain (F : NumberFormat) : Prop where
  layout : F.layout.IsPlain
  unscaled : F.layout.scale = 1
  single : F.zero = none

/-- A number whose shortest decimal fits is shown with the digits of that decimal. -/
theorem format?_of_fits (h : NumberFormat.compile p = .ok F) (plain : F.IsPlain)
    (negative : Bool) (hu : Representable units)
    (fits : (Magnitude.shortest units).Fits F.layout.fractionMax) (symbols : Symbols) :
    let v := Binary64.signed negative (.finite units hu)
    let numeral := (Magnitude.shortest units).padded F.layout.integerMin F.layout.fractionMin
    F.format? symbols v = some
      ((F.layout.affixes v).before ++ numeral.render symbols ++ (F.layout.affixes v).after) := by
  intro v numeral
  have unbounded : F.layout.integerMax = none := by
    have := (layout_wellFormed h).integerMax_isSome
    rw [← Option.not_isSome_iff_eq_none, this, plain.layout.exponential, plain.layout.significance]
    simp
  have zero : F.layout.pad = '0' := layoutFor_of_single plain.single v ▸ pad_layoutFor h v
  have body : (F.layoutFor v).bodyPieces? (v.scale (F.layoutFor v).scale) =
      some (.ofDigits numeral.integer :: fractionPieces numeral.fraction) := by
    rw [layoutFor_of_single plain.single, plain.unscaled, Binary64.scale_one]
    exact plain.layout.bodyPieces?_eq unbounded zero fits negative
  rw [format?_of_body symbols body, Piece.renderAll_enclosed, renderAll_numeral,
    layoutFor_of_single plain.single]

theorem format?_of_fits_of_half :
    let P := Pattern.ofTexts "'€'#.00;(#)" "'€'#.00".toList ["(#)".toList]
    let F := NumberFormat.ofSections P
    ∃ hu : Representable (2469 * Magnitude.half),
      NumberFormat.compile "'€'#.00;(#)" = .ok F ∧ F.IsPlain ∧
        (Magnitude.shortest (2469 * Magnitude.half)).Fits F.layout.fractionMax ∧
        F.format? .english (.signed true (.finite _ hu)) = some "(1234.50)" := by
  intro P F
  have compiled : NumberFormat.compile "'€'#.00;(#)" = .ok F :=
    compile_eq_ok (by decide) (by decide) (by decide) (by decide)
  have plain : F.IsPlain := ⟨⟨by decide, by decide, by decide, by decide⟩, by decide, rfl⟩
  have short : Magnitude.shortest (2469 * Magnitude.half) = ⟨12345, 1⟩ := by decide +kernel
  have fits : (Magnitude.shortest (2469 * Magnitude.half)).Fits F.layout.fractionMax := by
    rw [short]
    exact ⟨by decide, .inr ⟨by decide, .inl (by decide)⟩⟩
  refine ⟨by decide +kernel, compiled, plain, fits, ?_⟩
  refine (format?_of_fits compiled plain true _ fits .english).trans ?_
  decide +kernel

/-- A whole number just below `2 ^ 53` has no fraction to round, and another one is shown. -/
theorem format?_of_whole_number_changed :
    let F := NumberFormat.ofSections (Pattern.ofTexts "0.0" "0.0".toList [])
    ∃ hu : Representable ((2 ^ (53 : ℕ) - 1) * Magnitude.one),
      NumberFormat.compile "0.0" = .ok F ∧ F.IsPlain ∧
        Magnitude.shortest ((2 ^ (53 : ℕ) - 1) * Magnitude.one) = ⟨9007199254740991, 0⟩ ∧
        F.format? .english (.signed false (.finite _ hu)) = some "9007199254740990.0" := by
  intro F
  have compiled : NumberFormat.compile "0.0" = .ok F :=
    compile_eq_ok (by decide) (by decide) (by decide) (by decide)
  have plain : F.IsPlain := ⟨⟨by decide, by decide, by decide, by decide⟩, by decide, rfl⟩
  have short : Magnitude.shortest ((2 ^ (53 : ℕ) - 1) * Magnitude.one) = ⟨9007199254740991, 0⟩ := by
    decide +kernel
  exact ⟨Magnitude.representable_of_lt (by decide), compiled, plain, short, by decide +kernel⟩

end DecimalPattern
