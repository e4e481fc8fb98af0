import DecimalPattern.Proofs.Format.Range

/-! # Finite numbers are shown with digits

Special values are filtered once, before a number is rounded and shifted. Fixed notation and
exponential notation do not leave the finite range after that, and neither do significant digits
of numbers below `2 ^ 1022`. Rounding to significant digits nearer to the limit may overflow.
-/

namespace DecimalPattern

-- Powers of natural numbers are the built-in ones, also beside the monoids of algebra.
attribute [local instance (2000)] instPowNat

variable {p : String} {F : NumberFormat} {layout : Layout} {units : ℕ} {value : Magnitude}
  {numeral : Numeral} {pieces : List Piece}

namespace Layout

/-! ## Exponents -/

/-- The bounds on the integer digits fit together and are below the steps of the shift. -/
def Bounded (layout : Layout) : Prop :=
  ∀ most ∈ layout.integerMax, layout.integerMin ≤ most ∧ most ≤ 300

theorem Bounded.exponentStep (bounded : layout.Bounded) :
    1 ≤ layout.exponentStep ∧ layout.exponentStep ≤ 300 := by
  cases bound : layout.integerMax with
  | none => simp [Layout.exponentStep, bound]
  | some most =>
    have few := (bounded most bound).2
    have step := exponentStep_range bound (by omega)
    omega

theorem Bounded.firstExponent (bounded : layout.Bounded) (value : Magnitude) :
    -1 ≤ value.leadingExponent - layout.firstExponent value ∧
      value.leadingExponent - layout.firstExponent value ≤ 299 := by
  cases bound : layout.integerMax with
  | none => simp [Layout.firstExponent, Layout.exponentStep, bound]
  | some most =>
    have few := (bounded most bound).2
    have first := firstExponent_range bound (by omega) value
    omega

/-! ## Pieces -/

theorem isDecimal_mantissa (pad : layout.pad = '0') (h : Representable units) {e : ℤ}
    (lower : -301 ≤ (Magnitude.finite units h).leadingExponent - e)
    (upper : (Magnitude.finite units h).leadingExponent - e ≤ 301) :
    (layout.mantissaAt (.finite units h) e).IsDecimal := by
  unfold mantissaAt
  rw [pad]
  exact .significant _ (Magnitude.isFinite_mantissa h lower upper _)

theorem isDecimal_trimInteger (h : numeral.IsDecimal) :
    (layout.trimInteger numeral).IsDecimal := by
  unfold trimInteger
  split_ifs
  · exact ⟨fun c hc => absurd hc List.not_mem_nil, h.fraction⟩
  · exact h

theorem isDecimal_scientific (pad : layout.pad = '0') (bounded : layout.Bounded)
    (h : Representable units) : (layout.scientific (.finite units h)).mantissa.IsDecimal := by
  have step := bounded.exponentStep
  have first := bounded.firstExponent (.finite units h)
  unfold scientific
  dsimp only
  split_ifs
  · exact isDecimal_trimInteger (isDecimal_mantissa pad h (by omega) (by omega))
  · exact isDecimal_trimInteger (isDecimal_mantissa pad h (by omega) (by omega))

theorem digitPieces_exponentPieces (pad : layout.pad = '0') (exponent : ℤ) :
    DigitPieces (layout.exponentPieces exponent) := by
  unfold exponentPieces
  refine .append ?_ (.ofDigits ?_)
  · split_ifs
    · exact .symbol _
    · exact .symbol _
    · exact fun s mem => absurd mem List.not_mem_nil
  · rw [pad]
    exact (allDigits_digits _).leftpad

theorem digitPieces_scientificPieces (pad : layout.pad = '0') {s : Scientific}
    (h : s.mantissa.IsDecimal) : DigitPieces (layout.scientificPieces s) := by
  have mantissa := (DigitPieces.ofDigits h.integer).append (.fractionPieces h.fraction)
  have exponent := (DigitPieces.symbol .exponentSymbol).append
    (digitPieces_exponentPieces pad s.exponent)
  exact mantissa.append exponent

theorem digitPieces_integerPieces {digits : List Char} (h : AllDigits digits)
    (eq : layout.integerPieces? digits = some pieces) : DigitPieces pieces := by
  unfold integerPieces? at eq
  split at eq
  next =>
    obtain ⟨groups, cut, rfl⟩ := Option.map_eq_some_iff.mp eq
    intro s mem
    rcases eq_or_mem_of_mem_intersperse mem with separator | text
    · cases separator
    · obtain ⟨group, inside, eq⟩ := List.mem_map.mp text
      have shown := DigitPieces.ofDigits (h.of_subset fun c hc => by
        rw [← Grouping.flatten_groups? cut]
        exact List.mem_flatten_of_mem inside hc)
      exact shown s (by simp [← eq])
  next =>
    obtain rfl := Option.some.inj eq
    exact .ofDigits h

theorem digitPieces_positionalPieces (h : numeral.IsDecimal)
    (eq : layout.positionalPieces? numeral = some pieces) : DigitPieces pieces := by
  obtain ⟨integer, cut, rfl⟩ := Option.map_eq_some_iff.mp eq
  exact (digitPieces_integerPieces h.integer cut).append (.fractionPieces h.fraction)

/-- What a strategy needs to stay in the finite range: counts of digits that are not next to the
limit of 32-bit numbers, no more integer digits than a step of the shift, or a magnitude with room
to the limit. -/
structure HasRoom (layout : Layout) (units : ℕ) : Prop where
  fixed : layout.exponential = false → layout.significance = false →
    layout.fractionMax < 2 ^ (31 : ℕ)
  scientific : layout.exponential → ∀ most ∈ layout.integerMax,
    most ≤ 300 ∧ most + layout.fractionMax < 2 ^ (31 : ℕ) - 2 ^ (10 : ℕ)
  significant : layout.exponential = false → layout.significance →
    4 * units < unitLimit ∧ ∀ most ∈ layout.significantMax, most < 2 ^ (31 : ℕ) - 2 ^ (10 : ℕ)

variable {a : Bool}

theorem HasRoom.inRange (room : layout.HasRoom units) (wellFormed : layout.WellFormed)
    (x : Binary64) : layout.InRange x :=
  inRange_of_counts wellFormed x room.fixed
    (fun exponential most mem => (room.scientific exponential most mem).2)
    (fun plain significance => (room.significant plain significance).2)

theorem digitPieces_bodyPieces (pad : layout.pad = '0') (wellFormed : layout.WellFormed)
    (h : Representable units) (room : layout.HasRoom units)
    (eq : layout.bodyPieces? (.signed a (.finite units h)) = some pieces) :
    DigitPieces pieces := by
  have spec := layout.select_spec (.signed a (.finite units h))
  unfold bodyPieces? at eq
  cases strategy : Strategy.select layout (.signed a (.finite units h)) with
  | special =>
    rw [strategy] at spec
    exact absurd spec Bool.true_eq_false.mp
  | literal =>
    rw [strategy] at eq
    obtain rfl := Option.some.inj eq
    exact fun s mem => absurd mem List.not_mem_nil
  | exponential =>
    rw [strategy] at spec eq
    obtain ⟨-, -, exponential⟩ := spec
    have bounded : layout.Bounded := fun most mem =>
      ⟨wellFormed.integer_le most mem, (room.scientific exponential most mem).1⟩
    obtain ⟨s, run, rfl⟩ := Option.map_eq_some_iff.mp eq
    obtain rfl := scientific?_eq_some run
    exact digitPieces_scientificPieces pad (isDecimal_scientific pad bounded h)
  | significant =>
    rw [strategy] at spec eq
    obtain ⟨-, -, plain, significance⟩ := spec
    obtain ⟨numeral, run, eq⟩ := Option.bind_eq_some_iff.mp eq
    obtain ⟨-, rfl⟩ := splitSignificant?_eq_some_iff.mp run
    rw [pad] at eq
    exact digitPieces_positionalPieces (.significant _
      (Magnitude.isFinite_roundSignificant h (room.significant plain significance).1 _)) eq
  | fixed =>
    rw [strategy] at spec eq
    obtain ⟨-, -, plain, fixed⟩ := spec
    obtain ⟨numeral, run, eq⟩ := Option.bind_eq_some_iff.mp eq
    obtain ⟨-, rfl⟩ := formatFixed?_eq_some_iff.mp run
    have places := placesOfCount_of_lt (room.fixed plain fixed)
    exact digitPieces_positionalPieces (.fixed pad
      (Magnitude.isFinite_roundHalfEven h (.inl (by rw [places]; omega)))) eq

end Layout

/-! ## Formats -/

/-- Between the affixes of a finite number with room in its strategy there are only digits and
symbols. -/
theorem format?_of_hasRoom (h : NumberFormat.compile p = .ok F) {v : Binary64} {negative : Bool}
    {hu : Representable units}
    (scaled : v.scale (F.layoutFor v).scale = .signed negative (.finite units hu))
    (room : (F.layoutFor v).HasRoom units) :
    ∃ body, DigitPieces body ∧ ∀ symbols, F.format? symbols v = some (Piece.renderAll symbols
      (.text ((F.layoutFor v).affixes v).before :: body ++
        [.text ((F.layoutFor v).affixes v).after])) := by
  have wellFormed := wellFormed_layoutFor h v
  obtain ⟨body, eq⟩ := exists_body_layoutFor h (room.inRange wellFormed (v.scale _))
  refine ⟨body, ?_, fun symbols => format?_of_body symbols eq⟩
  rw [scaled] at eq
  exact Layout.digitPieces_bodyPieces (pad_layoutFor h v) wellFormed hu room eq

theorem format?_of_hasRoom_of_smallest :
    let F := NumberFormat.ofSections (Pattern.ofTexts "##0.##E0%" "##0.##E0%".toList [])
    ∃ (small : Representable 1) (scaled : Representable 100),
      let v := Binary64.signed true (.finite 1 small)
      NumberFormat.compile "##0.##E0%" = .ok F ∧
        v.scale (F.layoutFor v).scale = .signed true (.finite 100 scaled) ∧
        (F.layoutFor v).HasRoom 100 ∧
        ∃ body, DigitPieces body ∧ ∀ symbols, F.format? symbols v =
          some (Piece.renderAll symbols (.text "-" :: body ++ [.text "%"])) := by
  intro F
  have compiled : NumberFormat.compile "##0.##E0%" = .ok F :=
    compile_eq_ok (by decide) (by decide) (by decide) (by decide)
  obtain ⟨small, hundred⟩ : Representable 1 ∧ Representable 100 := by decide +kernel
  have layout := layoutFor_of_single (F := F) rfl
  have scaled : (Binary64.signed true (.finite 1 small)).scale 100 =
      .signed true (.finite 100 hundred) := by
    rw [Binary64.scale, Magnitude.ofUnits, Magnitude.round_eq_finite_iff.mpr]
    decide +kernel
  have room : F.layout.HasRoom 100 := by
    constructor
    · decide
    · intro _ most mem
      obtain rfl : 3 = most := Option.some.inj mem
      decide
    · intro plain
      exact absurd plain (by decide)
  refine ⟨small, hundred, compiled, ?_, ?_, ?_⟩
  · rw [layout]
    exact scaled
  · rw [layout]
    exact room
  · rw [← layout (.signed true (.finite 1 small))] at room
    have shown := format?_of_hasRoom compiled (by rw [layout]; exact scaled) room
    rw [layout] at shown
    exact shown

/-- The largest magnitude is rounded to two times a power of ten, which is beyond the limit. -/
theorem format?_of_largest_overflows :
    let F := NumberFormat.ofSections (Pattern.ofTexts "@" "@".toList [])
    let v := Binary64.ofBits 0x7fefffffffffffff
    NumberFormat.compile "@" = .ok F ∧ (v.scale (F.layoutFor v).scale).isFinite ∧
      ¬ (F.layoutFor v).literal ∧ ∀ symbols, F.format? symbols v = some "inf" := by
  intro F v
  have compiled : NumberFormat.compile "@" = .ok F :=
    compile_eq_ok (by decide) (by decide) (by decide) (by decide)
  have pieces : F.pieces? v = some [.text "", .text "inf", .text ""] := by decide +kernel
  refine ⟨compiled, by decide +kernel, by decide +kernel, fun symbols => ?_⟩
  rw [F.format?_eq_map, pieces]
  rfl

end DecimalPattern
