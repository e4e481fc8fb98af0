import DecimalPattern.Proofs.Format.Significant
import DecimalPattern.Proofs.Layout.LongPatterns

/-! # The digits of fixed notation

Both parts of a number in fixed notation are taken from one rounded value. The integer digits are
those of its floor, which are padded and never cut, and the fraction stays between its two bounds.
That no integer digit is cut rests on compiled layouts, which bound the integer digits for other
notations only. No number is rounded to the least of the 32-bit places, which `2 ^ 31` places wrap
around to.
-/

namespace DecimalPattern

-- Powers of natural numbers are the built-in ones, also beside the monoids of algebra.
attribute [local instance (2000)] instPowNat

variable {p : String} {F : NumberFormat} {layout : Layout} {v : Binary64} {x r : Magnitude}
  {units : ℕ}

/-! ## Layouts -/

/-- Numbers are written with neither an exponent nor a number of significant digits. -/
structure Layout.IsFixed (layout : Layout) : Prop where
  literal : layout.literal = false
  exponential : layout.exponential = false
  significance : layout.significance = false

/-- The layouts of a format: the one for numbers, and the one for zero if there is one. -/
def NumberFormat.layouts (F : NumberFormat) : List Layout := F.layout :: F.zero.toList

theorem wellFormed_of_mem_layouts (h : NumberFormat.compile p = .ok F) (mem : layout ∈ F.layouts) :
    layout.WellFormed := by
  rcases List.mem_cons.mp mem with rfl | mem
  · exact layout_wellFormed h
  · exact zero_wellFormed h layout (by simpa using mem)

theorem pad_of_mem_layouts (h : NumberFormat.compile p = .ok F) (mem : layout ∈ F.layouts) :
    layout.pad = '0' := by
  obtain ⟨P, -, -, rfl⟩ := compile_eq_ok_iff.mp h
  rcases List.mem_cons.mp mem with rfl | mem
  · rfl
  · obtain ⟨s, -, rfl⟩ : ∃ s ∈ P.zero, Layout.ofSections s.source s none = layout := by
      simpa [NumberFormat.ofSections] using mem
    rfl

theorem Layout.IsFixed.integerMax_eq_none (fixed : layout.IsFixed) (h : layout.WellFormed) :
    layout.integerMax = none := by
  rw [← Option.not_isSome_iff_eq_none, h.integerMax_isSome, fixed.exponential, fixed.significance]
  simp

/-! ## Digits -/

theorem Magnitude.allDigits_fraction (r : Magnitude) : AllDigits r.numeral.fraction := by
  cases r with
  | infinite => exact fun c hc => absurd hc List.not_mem_nil
  | finite units h =>
    rw [numeral_finite]
    exact Decimal.allDigits_fractionDigits _

namespace Layout

theorem fixedInteger_eq (pad : layout.pad = '0') (unbounded : layout.integerMax = none) :
    layout.fixedInteger r = if r.floor? = some 0 ∧ layout.integerMin = 0 then []
      else r.floor.numeral.integer.leftpad layout.integerMin '0' := by
  rw [fixedInteger_eq_leftpad, unbounded, pad, r.integer_numeral_floor]

theorem fixedFraction_of_not_isWhole (pad : layout.pad = '0') (fractional : ¬ x.isWhole) :
    layout.fixedFraction x r =
      (r.numeral.fraction.take layout.fractionMax).rightpad layout.fractionMin '0' := by
  have shown := r.allDigits_fraction.of_subset (List.take_subset layout.fractionMax _)
  rw [fixedFraction_eq_padRight, if_neg fractional, pad, padRight_zero shown.narrow]

theorem allDigits_fixedFraction (pad : layout.pad = '0') :
    AllDigits (layout.fixedFraction x r) := by
  by_cases whole : x.isWhole
  · rw [fixedFraction_eq_padRight, if_pos whole]
    exact .replicate_zero _
  · rw [fixedFraction_of_not_isWhole pad whole]
    exact (r.allDigits_fraction.of_subset (List.take_subset _ _)).rightpad

theorem length_fixedFraction (pad : layout.pad = '0')
    (le : layout.fractionMin ≤ layout.fractionMax) :
    layout.fractionMin ≤ (layout.fixedFraction x r).length ∧
      (layout.fixedFraction x r).length ≤ layout.fractionMax := by
  by_cases whole : x.isWhole
  · rw [fixedFraction_eq_padRight, if_pos whole, List.length_replicate]
    exact ⟨le_rfl, le⟩
  · rw [fixedFraction_of_not_isWhole pad whole, List.length_rightpad, List.length_take]
    omega

/-- How fixed notation writes a magnitude that is rounded to another one. -/
structure FixedDigits (layout : Layout) (x r : Magnitude) (n : Numeral) : Prop where
  integer : n.integer = if r.floor? = some 0 ∧ layout.integerMin = 0 then []
    else r.floor.numeral.integer.leftpad layout.integerMin '0'
  /-- Both parts are those of one decimal, so that a carry reaches the integer digits. -/
  carry : r.numeral.integer = r.floor.numeral.integer
  /-- The floor is written as a whole number that reads back, exact up to 53 bits. -/
  floor : r.isFinite → ∃ w, r.floor.numeral = ⟨digits w, []⟩ ∧ .ofNat w = r.floor ∧
    ∀ m ∈ r.floor?, m < 2 ^ (53 : ℕ) → w = m
  fraction : AllDigits n.fraction
  length_fraction : layout.fractionMin ≤ n.fraction.length ∧ n.fraction.length ≤ layout.fractionMax
  of_isWhole : x.isWhole → n.fraction = List.replicate layout.fractionMin '0'
  of_short : ¬ x.isWhole → r.numeral.fraction.length ≤ layout.fractionMax →
    n.fraction = r.numeral.fraction.rightpad layout.fractionMin '0'

theorem fixedDigits (h : layout.WellFormed) (pad : layout.pad = '0') (fixed : layout.IsFixed)
    (x r : Magnitude) :
    layout.FixedDigits x r ⟨layout.fixedInteger r, layout.fixedFraction x r⟩ where
  integer := fixedInteger_eq pad (fixed.integerMax_eq_none h)
  carry := r.integer_numeral_floor
  floor finite := by
    cases r with
    | infinite => contradiction
    | finite units hu =>
      obtain ⟨w, floor, -, reads, exact⟩ := Magnitude.exists_numeral_floor hu
      refine ⟨w, floor, reads, fun m mem small => ?_⟩
      obtain rfl := Option.some.inj mem
      exact exact small
  fraction := allDigits_fixedFraction pad
  length_fraction := length_fixedFraction pad h.fraction_le
  of_isWhole whole := if_pos whole
  of_short fractional short := by
    rw [fixedFraction_of_not_isWhole pad fractional, List.take_of_length_le short]

end Layout

/-! ## Formats -/

/-- A number in fixed notation is written with the digits of its rounded value, whichever of the two
layouts is used, and the separator is shown where the fraction is not empty. It has a text exactly
if it can be rounded, as it can be to less than `2 ^ 31` places. -/
theorem format?_of_isFixed (h : NumberFormat.compile p = .ok F) (mem : layout ∈ F.layouts)
    (fixed : layout.IsFixed) {negative : Bool} {hu : Representable units}
    (scaled : v.scale layout.scale = .signed negative (.finite units hu)) :
    let x := Binary64.signed negative (.finite units hu)
    let rounding := x.abs.roundHalfEven? (Int32.ofNat layout.fractionMax)
    (layout.fractionMax < 2 ^ (31 : ℕ) →
      ∃ r, rounding = some (.signed false r) ∧ r.isFinite) ∧
    (F.layoutFor v = layout → ∀ symbols, (F.format? symbols v).isSome ↔ rounding.isSome) ∧
    ∀ r, rounding = some (.signed false r) →
      ∃ n, layout.formatFixed? x = some n ∧ layout.FixedDigits (.finite units hu) r n ∧
        ∃ groups, layout.integerPieces? n.integer = some groups ∧
          (shownDigits groups = n.integer ∧ .symbol .decimalSeparator ∉ groups) ∧
          (F.layoutFor v = layout → ∀ symbols, F.format? symbols v = some
            ((layout.affixes v).before ++
              (Piece.renderAll symbols groups ++
                if n.fraction.isEmpty then ""
                else symbols.get .decimalSeparator ++ String.ofList n.fraction) ++
              (layout.affixes v).after)) := by
  intro x rounding
  refine ⟨fun small => ?_, fun used symbols => ?_, fun r rounded => ?_⟩
  · have places : (0 : ℤ) ≤ layout.fractionMax := Int.natCast_nonneg _
    exact ⟨_, Binary64.roundHalfEven?_ofNat_of_lt _ small,
      Magnitude.isFinite_roundHalfEven hu (.inl places)⟩
  · rw [isSome_format?_iff h, used, scaled]
    exact Layout.inRange_iff_of_fixed rfl fixed.literal fixed.exponential fixed.significance
  · have pad := pad_of_mem_layouts h mem
    have width : layout.pad.utf8Size = 1 := by
      rw [pad]
      rfl
    have run : layout.formatFixed? x = _ := Layout.formatFixed?_of_rounded rounded
    obtain ⟨groups, cut, body⟩ :=
      layout.exists_positionalPieces (Layout.narrow_of_formatFixed? width run)
    refine ⟨_, run, layout.fixedDigits (wellFormed_of_mem_layouts h mem) pad fixed _ r, groups,
      cut, Layout.shownDigits_integerPieces cut, fun used symbols => ?_⟩
    have eq : (F.layoutFor v).bodyPieces? (v.scale (F.layoutFor v).scale) =
        some (groups ++ fractionPieces (layout.fixedFraction (.finite units hu) r)) := by
      rw [used, scaled, Layout.bodyPieces?_of_fixed rfl fixed.literal fixed.exponential
        fixed.significance, run]
      exact body
    rw [format?_of_body symbols eq, Piece.renderAll_enclosed, Piece.renderAll_append,
      renderAll_fractionPieces, used]

theorem format?_of_isFixed_of_carry :
    let F := NumberFormat.ofSections (Pattern.ofTexts "#,##0.0" "#,##0.0".toList [])
    ∃ hu : Representable (31999 * 2 ^ (1069 : ℕ)),
      let v := Binary64.signed false (.finite _ hu)
      NumberFormat.compile "#,##0.0" = .ok F ∧ F.layout ∈ F.layouts ∧ F.layout.IsFixed ∧
        v.scale F.layout.scale = v ∧ F.layout.fractionMax < 2 ^ (31 : ℕ) ∧
        (∃ r, v.roundHalfEven? 1 = some (.signed false r) ∧ r.isFinite ∧
          F.layout.FixedDigits (.finite _ hu) r ⟨"1000".toList, ['0']⟩) ∧
        F.format? .english v = some "1,000.0" := by
  intro F
  have compiled : NumberFormat.compile "#,##0.0" = .ok F :=
    compile_eq_ok (by decide) (by decide) (by decide) (by decide)
  have fixed : F.layout.IsFixed := ⟨by decide, by decide, by decide⟩
  have small : F.layout.fractionMax < 2 ^ (31 : ℕ) := by decide
  refine ⟨by decide +kernel, ?_⟩
  have scaled := @Binary64.scale_one (31999 * 2 ^ (1069 : ℕ)) false (by decide +kernel)
  obtain ⟨rounds, -, shown⟩ := format?_of_isFixed compiled List.mem_cons_self fixed scaled
  obtain ⟨r, rounded, finite⟩ := rounds small
  obtain ⟨n, run, digits, groups, cut, -, text⟩ := shown r rounded
  -- The fraction carries over to a fourth integer digit.
  have numeral : ∀ hu, F.layout.formatFixed? (.signed false (.finite (31999 * 2 ^ (1069 : ℕ)) hu)) =
      some ⟨"1000".toList, ['0']⟩ := by decide +kernel
  obtain rfl := Option.some.inj (run.symm.trans (numeral _))
  refine ⟨compiled, List.mem_cons_self, fixed, scaled, small, ⟨r, rounded, finite, digits⟩, ?_⟩
  rw [text (layoutFor_of_single rfl _) .english]
  have grouped : F.layout.integerPieces? "1000".toList =
      some [.text "1", .symbol .thousandsSeparator, .text "000"] := by decide +kernel
  rw [← Option.some.inj (grouped.symm.trans cut)]
  decide +kernel

/-- As many places as wrap around to the least 32-bit number are not rounded to, and one half has no
text. -/
theorem format?_of_least_place :
    ∃ F, NumberFormat.compile (String.ofList (pointHashes (2 ^ (31 : ℕ)))) = .ok F ∧
      F.layouts = [F.layout] ∧ F.layout.IsFixed ∧ F.layout.fractionMax = 2 ^ (31 : ℕ) ∧
      ∃ hu : Representable Magnitude.half,
        let v := Binary64.signed false (.finite _ hu)
        v.scale F.layout.scale = v ∧ ¬ v.isWhole ∧ ∀ symbols, F.format? symbols v = none := by
  obtain ⟨layout, compiled, literal, plain, fixed, places, scale⟩ :=
    exists_compile_pointHashes (2 ^ (31 : ℕ))
  have hu : Representable Magnitude.half := by decide +kernel
  have whole : ∀ hu : Representable Magnitude.half,
      ¬ (Binary64.signed false (.finite _ hu)).isWhole := by decide +kernel
  have scaled : (Binary64.signed false (.finite _ hu)).scale layout.scale =
      .signed false (.finite _ hu) := by
    rw [scale]
    exact Binary64.scale_one false hu
  refine ⟨_, compiled, rfl, ⟨literal, plain, fixed⟩, places, hu, scaled, whole hu,
    fun symbols => ?_⟩
  have wraps : placesOfCount (2 ^ (31 : ℕ)) = -2 ^ (31 : ℕ) := by decide
  have refused : ¬ layout.InRange (.signed false (.finite _ hu)) := by
    rw [Layout.inRange_iff_of_fixed rfl literal plain fixed, places, Binary64.abs,
      Binary64.roundHalfEven?_ofNat, if_pos wraps]
    exact Bool.false_ne_true
  rw [← Option.not_isSome_iff_eq_none, isSome_format?_iff compiled, layoutFor_of_single rfl]
  change ¬ layout.InRange (Binary64.scale _ layout.scale)
  rwa [scaled]

end DecimalPattern
