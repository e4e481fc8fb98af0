import DecimalPattern.Proofs.Format.Fixed
import DecimalPattern.Proofs.Layout.LongPatterns

/-! # Exponents

The exponent that is shown is the one of the mantissa, and where the integer digits have a range it
is a multiple of their upper bound, below one and after a carry too. The bound is used as a 32-bit
number, so that from `2 ^ 31` on it may be another step. For patterns of less than `2 ^ 30`
characters no number on the way leaves the 32-bit range.
-/

namespace DecimalPattern

-- Powers of natural numbers are the built-in ones, also beside the monoids of algebra.
attribute [local instance (2000)] instPowNat

variable {p : String} {F : NumberFormat} {layout : Layout} {x : Binary64} {s : Scientific}
  {units most : ℕ}

namespace Layout

/-! ## The exponent that is shown -/

theorem exponentStep_dvd (ranged : layout.integerMax ≠ some layout.integerMin) (x : Magnitude) :
    layout.exponentStep ∣ (layout.scientific x).exponent := by
  have first : layout.exponentStep ∣ layout.firstExponent x := by
    rw [firstExponent, if_neg ranged]
    exact Int.dvd_mul_left _ _
  rw [scientific]
  dsimp only
  split_ifs
  · exact Int.dvd_add first (Int.dvd_refl _)
  · exact first

theorem dvd_exponent (bound : layout.integerMax = some most) (small : most < 2 ^ (31 : ℕ))
    (ne : most ≠ layout.integerMin) (pos : 0 < most) (x : Magnitude) :
    (most : ℤ) ∣ (layout.scientific x).exponent := by
  have ranged : layout.integerMax ≠ some layout.integerMin := by
    rw [bound]
    exact fun eq => ne (Option.some.inj eq)
  have dvd := exponentStep_dvd ranged x
  rwa [exponentStep_eq bound small, if_neg (by omega)] at dvd

/-- The mantissa belongs to the exponent that is shown with it. -/
theorem exists_mantissa (run : layout.scientific? x = some s) :
    ∃ n, layout.mantissa? x.abs s.exponent = some n ∧ s.mantissa = layout.trimInteger n := by
  obtain ⟨⟨first, step⟩, -, run⟩ := Option.bind_eq_some_iff.mp run
  obtain ⟨n, shown, run⟩ := Option.bind_eq_some_iff.mp run
  split_ifs at run
  · obtain ⟨next, -, run⟩ := Option.bind_eq_some_iff.mp run
    obtain ⟨n, shown, run⟩ := Option.bind_eq_some_iff.mp run
    obtain rfl := Option.some.inj run
    exact ⟨n, shown, rfl⟩
  · obtain rfl := Option.some.inj run
    exact ⟨n, shown, rfl⟩

/-- The digits of an exponent, with zeros up to the least count. -/
structure ExponentDigits (layout : Layout) (e : ℤ) (ds : List Char) : Prop where
  eq : ds = (digits e.natAbs).leftpad layout.exponentMin '0'
  length : layout.exponentMin ≤ ds.length
  value : Nat.ofDigitChars 10 ds 0 = e.natAbs

theorem exponentDigits (layout : Layout) (e : ℤ) :
    layout.ExponentDigits e ((digits e.natAbs).leftpad layout.exponentMin '0') where
  eq := rfl
  length := by
    rw [List.length_leftpad]
    exact le_max_left _ _
  value := by
    rw [List.leftpad, Nat.ofDigitChars_append, Nat.ofDigitChars_replicate_zero, Nat.mul_zero,
      digits, Nat.ofDigitChars_ten_toDigits]

theorem renderAll_scientificPieces (pad : layout.pad = '0') (symbols : Symbols) (s : Scientific) :
    Piece.renderAll symbols (layout.scientificPieces s) =
      s.mantissa.render symbols ++ symbols.get .exponentSymbol ++
        layout.exponentSign symbols s.exponent ++
          String.ofList ((digits s.exponent.natAbs).leftpad layout.exponentMin '0') := by
  rw [scientificPieces, Piece.renderAll_append, renderAll_numeral, Piece.renderAll_cons,
    Piece.render_symbol, renderAll_exponentPieces, pad]
  simp only [String.append_assoc]

end Layout

/-! ## Formats -/

/-- A number in exponential notation is written with its mantissa and the sign and the digits of the
exponent. Where the integer digits have a range the exponent is a multiple of their upper bound. A
short pattern has a text for every number, and no 32-bit number overflows on the way. -/
theorem format?_of_exponential (h : NumberFormat.compile p = .ok F) {v : Binary64}
    {negative : Bool} {hu : Representable units}
    (scaled : v.scale (F.layoutFor v).scale = .signed negative (.finite units hu))
    (exponential : (F.layoutFor v).exponential) :
    let layout := F.layoutFor v
    let x := Binary64.signed negative (.finite units hu)
    (p.length < 2 ^ (30 : ℕ) → (layout.scientific? x).isSome) ∧
    (∀ symbols, (F.format? symbols v).isSome ↔ (layout.scientific? x).isSome) ∧
    ∀ s, layout.scientific? x = some s →
      (∃ ds, layout.ExponentDigits s.exponent ds ∧
        ∀ symbols, F.format? symbols v = some ((layout.affixes v).before ++
          (s.mantissa.render symbols ++ symbols.get .exponentSymbol ++
            layout.exponentSign symbols s.exponent ++ String.ofList ds) ++
          (layout.affixes v).after)) ∧
      (∃ n, layout.mantissa? x.abs s.exponent = some n ∧ s.mantissa = layout.trimInteger n) ∧
      ∀ most ∈ layout.integerMax, most < 2 ^ (31 : ℕ) → most ≠ layout.integerMin → 0 < most →
        (most : ℤ) ∣ s.exponent := by
  intro layout x
  have wellFormed : layout.WellFormed := wellFormed_layoutFor h v
  have literal := wellFormed.literal_eq_false (.inl exponential)
  have range : layout.InRange x ↔ (layout.scientific? x).isSome :=
    Layout.inRange_iff_of_exponential rfl literal exponential
  refine ⟨fun short => range.mp (inRange_of_short h short v x), fun symbols => ?_,
    fun s run => ⟨⟨_, layout.exponentDigits s.exponent, fun symbols => ?_⟩,
      Layout.exists_mantissa run, fun most bound small ne pos => ?_⟩⟩
  · rw [isSome_format?_iff h, scaled]
    exact range
  · have body : layout.bodyPieces? (v.scale layout.scale) = some (layout.scientificPieces s) := by
      rw [scaled, Layout.bodyPieces?_of_exponential rfl literal exponential, run]
      rfl
    rw [format?_of_body symbols body, Piece.renderAll_enclosed,
      Layout.renderAll_scientificPieces (pad_layoutFor h v)]
  · obtain rfl := Layout.scientific?_eq_some run
    exact Layout.dvd_exponent bound small ne pos _

/-- The mantissa of a number below one is carried to a fourth digit, and the exponent goes up by a
step of three. -/
theorem format?_of_exponential_of_carry :
    let F := NumberFormat.ofSections (Pattern.ofTexts "##0.#E+00" "##0.#E+00".toList [])
    ∃ hu : Representable (0x41890C58A8E39 * 2 ^ (1014 : ℕ)),
      let v := Binary64.signed true (.finite _ hu)
      NumberFormat.compile "##0.#E+00" = .ok F ∧ v.scale F.layout.scale = v ∧
        F.layout.exponential ∧ F.layout.integerMax = some 3 ∧ 3 < 2 ^ (31 : ℕ) ∧
        3 ≠ F.layout.integerMin ∧ "##0.#E+00".length < 2 ^ (30 : ℕ) ∧
        F.layout.firstExponent? v.abs.leadingExponent = some (-6, 3) ∧
        F.layout.scientific? v = some ⟨⟨['1'], []⟩, -3⟩ ∧
        F.layout.ExponentDigits (-3) ['0', '3'] ∧ (3 : ℤ) ∣ -3 ∧
        ∀ symbols, F.format? symbols v = some ("-" ++ ("1" ++ symbols.get .exponentSymbol ++
          symbols.get .negativeSign ++ "03") ++ "") := by
  intro F
  have compiled : NumberFormat.compile "##0.#E+00" = .ok F :=
    compile_eq_ok (by decide) (by decide) (by decide) (by decide)
  obtain ⟨hu, first, run⟩ : ∃ hu : Representable (0x41890C58A8E39 * 2 ^ (1014 : ℕ)),
      let v := Binary64.signed true (.finite _ hu)
      F.layout.firstExponent? v.abs.leadingExponent = some (-6, 3) ∧
        F.layout.scientific? v = some ⟨⟨['1'], []⟩, -3⟩ := by decide +kernel
  have layout := layoutFor_of_single (F := F) rfl (.signed true (.finite _ hu))
  have scaled : (Binary64.signed true (.finite _ hu)).scale F.layout.scale =
      .signed true (.finite _ hu) := Binary64.scale_one true hu
  have bound : F.layout.integerMax = some 3 := by decide
  have short : "##0.#E+00".length < 2 ^ (30 : ℕ) := by decide
  obtain ⟨-, -, shown⟩ := format?_of_exponential compiled (by rw [layout]; exact scaled)
    (by rw [layout]; decide)
  rw [layout] at shown
  obtain ⟨⟨ds, digits, text⟩, -, dvd⟩ := shown _ run
  obtain rfl : ds = ['0', '3'] := digits.eq
  refine ⟨hu, compiled, scaled, by decide, bound, by decide, by decide, short, first, run, digits,
    dvd 3 bound (by decide) (by decide) (by decide), fun symbols => ?_⟩
  rw [text, Layout.affixes, if_pos (Binary64.isNegative_of_ne_zero (by decide +kernel) hu)]
  rfl

/-- A bound on the integer digits that wraps to one allows every exponent. -/
theorem format?_of_wrapped_step :
    let F := NumberFormat.ofLayout (hashLayout (2 ^ (32 : ℕ)))
    let v := Binary64.signed false (.ofNat 10)
    let s : Scientific := ⟨⟨['1'], []⟩, 1⟩
    NumberFormat.compile (String.ofList (hashes (2 ^ (32 : ℕ)))) = .ok F ∧ F.zero = none ∧
      F.layout.exponential ∧ F.layout.integerMin = 1 ∧
      F.layout.integerMax = some (2 ^ (32 : ℕ) + 1) ∧ (v.scale F.layout.scale).isFinite ∧
      (∀ symbols, F.format? symbols v =
        some (Piece.renderAll symbols (.text "" :: F.layout.scientificPieces s ++ [.text ""]))) ∧
      F.layout.ExponentDigits s.exponent ['1'] ∧
      ¬ ((2 ^ (32 : ℕ) + 1 : ℕ) : ℤ) ∣ s.exponent := by
  intro F v s
  have pieces : F.pieces? v = some (.text "" :: F.layout.scientificPieces s ++ [.text ""]) := by
    decide +kernel
  refine ⟨compile_hashes _, rfl, rfl, rfl, rfl, by decide +kernel, fun symbols => ?_,
    Layout.exponentDigits _ 1, by decide +kernel⟩
  rw [F.format?_eq_map, pieces]
  rfl

end DecimalPattern
