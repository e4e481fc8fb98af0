import DecimalPattern.Proofs.Binary64.Arithmetic
import DecimalPattern.Proofs.Format.Grouping
import DecimalPattern.Proofs.Layout.WellFormed

/-! # The pieces of a number

What stands between the affixes of a number has one of five forms, and the form says which symbols
occur, how often and where. There are pieces exactly where no number of digits or of places leaves
the 32-bit range, as long as the pad character is one byte wide.
-/

namespace DecimalPattern

variable {p : String} {F : NumberFormat} {layout : Layout} {v x : Binary64} {s : Symbol}
  {body pieces : List Piece}

namespace Binary64

theorem scale_eq_nan_iff {factor : ℕ} (ne : factor ≠ 0) : x.scale factor = .nan ↔ x = .nan := by
  match x with
  | .nan => exact Iff.rfl
  | .signed _ .infinite => simp [scale, ne]
  | .signed _ (.finite ..) => simp [scale]

end Binary64

namespace Piece

@[simp] theorem symbol_ne_ofDigits (digits : List Char) : symbol s ≠ ofDigits digits := nofun

@[simp] theorem ofDigits_ne_symbol (digits : List Char) : ofDigits digits ≠ symbol s := nofun

end Piece

/-! ## Signs -/

def Symbol.isSign : Symbol → Bool
  | positiveSign | negativeSign => true
  | _ => false

/-- Every sign stands right after the exponent symbol. -/
def SignsFollow (pieces : List Piece) : Prop :=
  ∀ before s after, pieces = before ++ .symbol s :: after → s.isSign →
    before.getLast? = some (.symbol .exponentSymbol)

namespace SignsFollow

theorem of_no_sign (h : ∀ s, .symbol s ∈ pieces → s.isSign = false) : SignsFollow pieces := by
  rintro before s after rfl sign
  simp [h s (by simp)] at sign

theorem append {a b : List Piece} (ha : SignsFollow a) (hb : SignsFollow b) :
    SignsFollow (a ++ b) := by
  intro before s after eq sign
  rcases List.append_eq_append_iff.mp eq with ⟨front, rfl, inner⟩ | ⟨back, rfl, inner⟩
  · -- The sign stands in the second list.
    have last := hb front s after inner sign
    rw [List.getLast?_append, last]
    rfl
  · cases back with
    | nil =>
      have last := hb [] s after inner.symm sign
      simp at last
    | cons piece back =>
      obtain ⟨rfl, rfl⟩ := List.cons.inj inner
      exact ha before s back rfl sign

theorem exponent (sign : Symbol) (digits : List Char) :
    SignsFollow [.symbol .exponentSymbol, .symbol sign, .ofDigits digits] := by
  intro before s after eq isSign
  rcases before with _ | ⟨a, _ | ⟨b, _ | ⟨c, before⟩⟩⟩
  · obtain rfl := Piece.symbol.inj (List.cons.inj eq).1
    cases isSign
  · simp_all
  · simp at eq
  · simp at eq

end SignsFollow

/-! ## Pieces of numerals -/

theorem symbol_mem_fractionPieces {fraction : List Char}
    (h : .symbol s ∈ fractionPieces fraction) : s = .decimalSeparator := by
  unfold fractionPieces at h
  split at h <;> simp_all

theorem count_fractionPieces_le (fraction : List Char) :
    (fractionPieces fraction).count (.symbol .decimalSeparator) ≤ 1 := by
  unfold fractionPieces
  split <;> simp

theorem eq_or_mem_of_mem_intersperse {α : Type*} {a sep : α} {l : List α}
    (h : a ∈ l.intersperse sep) : a = sep ∨ a ∈ l := by
  fun_induction l.intersperse sep with
  | case1 | case2 => exact .inr h
  | case3 b l _ ih =>
    rcases List.mem_cons.mp h with rfl | h
    · exact .inr List.mem_cons_self
    rcases List.mem_cons.mp h with rfl | h
    · exact .inl rfl
    · exact (ih h).imp_right (List.mem_cons_of_mem b)

theorem symbol_mem_groupPieces {primary secondary : ℕ} {digits : List Char}
    (h : Grouping.pieces? primary secondary digits = some pieces) (mem : .symbol s ∈ pieces) :
    s = .thousandsSeparator := by
  obtain ⟨groups, -, rfl⟩ := Option.map_eq_some_iff.mp h
  rcases eq_or_mem_of_mem_intersperse mem with separator | text
  · exact Piece.symbol.inj separator
  · simp at text

namespace Layout

theorem exponentPieces_cases (layout : Layout) (exponent : ℤ) :
    ∃ digits, layout.exponentPieces exponent = [.ofDigits digits] ∨
      ∃ s : Symbol, s.isSign ∧ layout.exponentPieces exponent = [.symbol s, .ofDigits digits] := by
  refine ⟨(digits exponent.natAbs).leftpad layout.exponentMin layout.pad, ?_⟩
  unfold exponentPieces
  split_ifs
  · exact .inr ⟨.negativeSign, rfl, rfl⟩
  · exact .inr ⟨.positiveSign, rfl, rfl⟩
  · exact .inl rfl

theorem isSign_of_mem_exponentPieces {exponent : ℤ}
    (h : .symbol s ∈ layout.exponentPieces exponent) : s.isSign := by
  obtain ⟨digits, eq | ⟨sign, isSign, eq⟩⟩ := layout.exponentPieces_cases exponent
  · simp [eq] at h
  · obtain rfl : s = sign := by simpa [eq] using h
    exact isSign

theorem count_exponentPieces {exponent : ℤ} (h : ¬ s.isSign) :
    (layout.exponentPieces exponent).count (.symbol s) = 0 :=
  List.count_eq_zero.mpr fun mem => h (isSign_of_mem_exponentPieces mem)

theorem symbol_mem_scientificPieces {number : Scientific}
    (h : .symbol s ∈ layout.scientificPieces number) :
    s = .decimalSeparator ∨ s = .exponentSymbol ∨ s.isSign := by
  rcases List.mem_append.mp h with mantissa | exponent
  · have fraction := List.mem_of_ne_of_mem (Piece.symbol_ne_ofDigits _) mantissa
    exact .inl (symbol_mem_fractionPieces fraction)
  · rcases List.mem_cons.mp exponent with eq | mem
    · exact .inr (.inl (Piece.symbol.inj eq))
    · exact .inr (.inr (isSign_of_mem_exponentPieces mem))

/-! ## Bodies -/

/-- The forms of what stands between the affixes. -/
inductive Body (layout : Layout) : Binary64 → List Piece → Prop
  | nan : layout.Body .nan [.symbol .nanSymbol]
  | infinite (negative : Bool) :
      layout.Body (.signed negative .infinite) [.symbol .infinitySymbol]
  | literal {x : Binary64} (finite : x.isFinite) (literal : layout.literal) : layout.Body x []
  | scientific {x : Binary64} (s : Scientific) (finite : x.isFinite)
      (shown : layout.literal = false) (exponential : layout.exponential) :
      layout.Body x (layout.scientificPieces s)
  | positional {x : Binary64} {integer : List Piece} (fraction : List Char) (finite : x.isFinite)
      (shown : layout.literal = false) (plain : layout.exponential = false)
      (grouped : ∀ s, .symbol s ∈ integer → s = .thousandsSeparator ∧ layout.grouping) :
      layout.Body x (integer ++ fractionPieces fraction)

/-- What the choice of a strategy says about a number and its layout. -/
theorem select_spec (layout : Layout) (x : Binary64) :
    match Strategy.select layout x with
    | .special => x.isFinite = false
    | .literal => x.isFinite ∧ layout.literal
    | .exponential => x.isFinite ∧ layout.literal = false ∧ layout.exponential
    | .significant =>
      x.isFinite ∧ layout.literal = false ∧ layout.exponential = false ∧ layout.significance
    | .fixed => x.isFinite ∧ layout.literal = false ∧ layout.exponential = false ∧
      layout.significance = false := by
  unfold Strategy.select
  split_ifs <;> simp_all

theorem bodyPieces?_of_fixed (finite : x.isFinite) (literal : layout.literal = false)
    (plain : layout.exponential = false) (fixed : layout.significance = false) :
    layout.bodyPieces? x = (layout.formatFixed? x).bind layout.positionalPieces? := by
  simp [bodyPieces?, Strategy.select, finite, literal, plain, fixed]

theorem bodyPieces?_of_significant (finite : x.isFinite) (literal : layout.literal = false)
    (plain : layout.exponential = false) (significance : layout.significance) :
    layout.bodyPieces? x =
      (splitSignificant? x layout.significantMin layout.significantMax layout.pad).bind
        layout.positionalPieces? := by
  simp [bodyPieces?, Strategy.select, finite, literal, plain, significance]

theorem bodyPieces?_of_exponential (finite : x.isFinite) (literal : layout.literal = false)
    (exponential : layout.exponential) :
    layout.bodyPieces? x = (layout.scientific? x).map layout.scientificPieces := by
  simp [bodyPieces?, Strategy.select, finite, literal, exponential]

theorem grouped_of_integerPieces? {integer : List Char}
    (h : layout.integerPieces? integer = some pieces) (mem : .symbol s ∈ pieces) :
    s = .thousandsSeparator ∧ layout.grouping := by
  unfold integerPieces? at h
  split at h
  next grouping => exact ⟨symbol_mem_groupPieces h mem, grouping⟩
  next =>
    obtain rfl := Option.some.inj h
    simp at mem

theorem body_of_positionalPieces? (finite : x.isFinite) (shown : layout.literal = false)
    (plain : layout.exponential = false) {numeral : Numeral}
    (h : layout.positionalPieces? numeral = some body) : layout.Body x body := by
  obtain ⟨integer, cut, rfl⟩ := Option.map_eq_some_iff.mp h
  exact .positional numeral.fraction finite shown plain fun s mem =>
    grouped_of_integerPieces? cut mem

/-- Whatever the digits are, the pieces have one of the forms. -/
theorem body_of_bodyPieces? (h : layout.bodyPieces? x = some body) : layout.Body x body := by
  have spec := layout.select_spec x
  unfold bodyPieces? at h
  cases strategy : Strategy.select layout x with
  | special =>
    rw [strategy] at spec h
    obtain rfl := Option.some.inj h
    match x with
    | .nan => exact .nan
    | .signed negative .infinite => exact .infinite negative
    | .signed _ (.finite ..) => exact absurd spec Bool.true_eq_false.mp
  | literal =>
    rw [strategy] at spec h
    obtain rfl := Option.some.inj h
    exact .literal spec.1 spec.2
  | exponential =>
    rw [strategy] at spec h
    obtain ⟨s, -, rfl⟩ := Option.map_eq_some_iff.mp h
    exact .scientific s spec.1 spec.2.1 spec.2.2
  | significant =>
    rw [strategy] at spec h
    obtain ⟨numeral, -, h⟩ := Option.bind_eq_some_iff.mp h
    exact body_of_positionalPieces? spec.1 spec.2.1 spec.2.2.1 h
  | fixed =>
    rw [strategy] at spec h
    obtain ⟨numeral, -, h⟩ := Option.bind_eq_some_iff.mp h
    exact body_of_positionalPieces? spec.1 spec.2.1 spec.2.2.1 h

/-! ## Numbers that have a body -/

/-- No number of digits or of places leaves the 32-bit range. -/
@[mk_iff]
structure InRange (layout : Layout) (scaled : Binary64) : Prop where
  scientific : Strategy.select layout scaled = .exponential → (layout.scientific? scaled).isSome
  significant : Strategy.select layout scaled = .significant →
    (scaled.abs.roundSignificant? layout.significantMax).isSome
  fixed : Strategy.select layout scaled = .fixed →
    (scaled.abs.roundHalfEven? (Int32.ofNat layout.fractionMax)).isSome

theorem inRange_iff_of_significant (finite : x.isFinite) (literal : layout.literal = false)
    (plain : layout.exponential = false) (significance : layout.significance) :
    layout.InRange x ↔ (x.abs.roundSignificant? layout.significantMax).isSome := by
  simp [inRange_iff, Strategy.select, finite, literal, plain, significance]

theorem inRange_iff_of_exponential (finite : x.isFinite) (literal : layout.literal = false)
    (exponential : layout.exponential) : layout.InRange x ↔ (layout.scientific? x).isSome := by
  simp [inRange_iff, Strategy.select, finite, literal, exponential]

theorem inRange_iff_of_fixed (finite : x.isFinite) (literal : layout.literal = false)
    (plain : layout.exponential = false) (fixed : layout.significance = false) :
    layout.InRange x ↔ (x.abs.roundHalfEven? (Int32.ofNat layout.fractionMax)).isSome := by
  simp [inRange_iff, Strategy.select, finite, literal, plain, fixed]

theorem exists_positionalPieces {n : Numeral} (narrow : Narrow n.integer) :
    ∃ groups, layout.integerPieces? n.integer = some groups ∧
      layout.positionalPieces? n = some (groups ++ fractionPieces n.fraction) := by
  obtain ⟨groups, cut⟩ : ∃ groups, layout.integerPieces? n.integer = some groups := by
    unfold integerPieces?
    split
    next => exact Grouping.exists_pieces layout.primaryGroup layout.secondaryGroup narrow
    next => exact ⟨_, rfl⟩
  refine ⟨groups, cut, ?_⟩
  rw [positionalPieces?, cut]
  rfl

theorem isSome_positionalPieces? {n : Numeral} (narrow : Narrow n.integer) :
    (layout.positionalPieces? n).isSome := by
  obtain ⟨groups, -, eq⟩ := layout.exists_positionalPieces narrow
  rw [eq]
  rfl

theorem isSome_splitSignificant?_iff {least : ℕ} {most : Option ℕ} {pad : Char} :
    (splitSignificant? x least most pad).isSome ↔ (x.abs.roundSignificant? most).isSome := by
  rw [splitSignificant?]
  cases x.abs.roundSignificant? most <;> rfl

theorem isSome_formatFixed?_iff : (layout.formatFixed? x).isSome ↔
    (x.abs.roundHalfEven? (Int32.ofNat layout.fractionMax)).isSome := by
  rw [formatFixed?]
  cases x.abs.roundHalfEven? (Int32.ofNat layout.fractionMax) <;> rfl

theorem isSome_bind_positionalPieces? {n : Option Numeral}
    (narrow : ∀ n' ∈ n, Narrow n'.integer) :
    (n.bind layout.positionalPieces?).isSome ↔ n.isSome := by
  cases n with
  | none => rfl
  | some n => exact iff_of_true (isSome_positionalPieces? (narrow n rfl)) rfl

theorem isSome_bodyPieces?_of_narrow (hpad : layout.pad.utf8Size = 1) (x : Binary64) :
    (layout.bodyPieces? x).isSome ↔ layout.InRange x := by
  rw [bodyPieces?, inRange_iff]
  cases Strategy.select layout x with
  | special | literal => simp
  | exponential => simp
  | significant =>
    dsimp only
    rw [isSome_bind_positionalPieces? fun n => narrow_of_splitSignificant?,
      isSome_splitSignificant?_iff]
    simp
  | fixed =>
    dsimp only
    rw [isSome_bind_positionalPieces? fun n => narrow_of_formatFixed? hpad,
      isSome_formatFixed?_iff]
    simp

namespace Body

theorem of_separator_mem (h : layout.Body x body) (mem : .symbol .thousandsSeparator ∈ body) :
    layout.grouping ∧ ¬ layout.exponential ∧ ¬ layout.literal := by
  cases h with
  | nan | infinite | literal => simp at mem
  | scientific s _ shown exponential =>
    rcases symbol_mem_scientificPieces mem with eq | eq | sign
    · cases eq
    · cases eq
    · cases sign
  | positional fraction _ shown plain grouped =>
    rcases List.mem_append.mp mem with mem | mem
    · simp [(grouped _ mem).2, shown, plain]
    · cases symbol_mem_fractionPieces mem

/-- The symbols that a finite number may show. -/
theorem symbol_cases (h : layout.Body x body) (finite : x.isFinite) (mem : .symbol s ∈ body) :
    s = .thousandsSeparator ∨ s = .decimalSeparator ∨ s = .exponentSymbol ∨ s.isSign := by
  cases h with
  | nan | infinite => contradiction
  | literal => simp at mem
  | scientific => exact .inr (symbol_mem_scientificPieces mem)
  | positional _ _ _ _ grouped =>
    rcases List.mem_append.mp mem with mem | mem
    · simp [(grouped s mem).1]
    · simp [symbol_mem_fractionPieces mem]

/-- The bodies of numbers that are not finite. -/
theorem special_cases (h : layout.Body x body) (special : ¬ x.isFinite) :
    x = .nan ∧ body = [.symbol .nanSymbol] ∨
      ∃ negative, x = .signed negative .infinite ∧ body = [.symbol .infinitySymbol] := by
  cases h with
  | nan => exact .inl ⟨rfl, rfl⟩
  | infinite negative => exact .inr ⟨negative, rfl, rfl⟩
  | literal finite | scientific _ finite | positional _ finite => contradiction

theorem count_point_le (h : layout.Body x body) :
    body.count (.symbol .decimalSeparator) ≤ 1 := by
  cases h with
  | nan | infinite | literal => simp
  | scientific s =>
    simp [scientificPieces, count_exponentPieces, Symbol.isSign, count_fractionPieces_le]
  | positional fraction _ _ _ grouped =>
    have integer := List.count_eq_zero.mpr (mt (grouped .decimalSeparator) (by simp))
    simp [integer, count_fractionPieces_le]

theorem count_exponent (h : layout.Body x body) :
    body.count (.symbol .exponentSymbol) =
      if x.isFinite ∧ layout.exponential ∧ ¬ layout.literal then 1 else 0 := by
  have fraction (f : List Char) : (fractionPieces f).count (.symbol .exponentSymbol) = 0 :=
    List.count_eq_zero.mpr (mt symbol_mem_fractionPieces (by simp))
  cases h with
  | nan | infinite => rfl
  | literal _ literal => simp [literal]
  | scientific s finite shown exponential =>
    simp [scientificPieces, fraction, count_exponentPieces, Symbol.isSign, finite, shown,
      exponential]
  | positional f _ _ plain grouped =>
    have integer := List.count_eq_zero.mpr (mt (grouped .exponentSymbol) (by simp))
    simp [integer, fraction, plain]

theorem count_nan (h : layout.Body x body) :
    body.count (.symbol .nanSymbol) = if x = .nan then 1 else 0 := by
  by_cases finite : x.isFinite
  · have absent : .symbol .nanSymbol ∉ body := fun mem => by
      simpa [Symbol.isSign] using h.symbol_cases finite mem
    rw [List.count_eq_zero.mpr absent, if_neg (by rintro rfl; cases finite)]
  · rcases h.special_cases finite with ⟨rfl, rfl⟩ | ⟨negative, rfl, rfl⟩ <;> rfl

theorem count_infinity (h : layout.Body x body) :
    body.count (.symbol .infinitySymbol) = if x.isInfinite then 1 else 0 := by
  by_cases finite : x.isFinite
  · have absent : .symbol .infinitySymbol ∉ body := fun mem => by
      simpa [Symbol.isSign] using h.symbol_cases finite mem
    rw [List.count_eq_zero.mpr absent, if_neg (Binary64.not_isInfinite_of_isFinite finite)]
  · rcases h.special_cases finite with ⟨rfl, rfl⟩ | ⟨negative, rfl, rfl⟩ <;> rfl

theorem of_nan (h : layout.Body .nan body) : body = [.symbol .nanSymbol] := by
  rcases h.special_cases nofun with ⟨-, rfl⟩ | ⟨_, eq, -⟩
  · rfl
  · cases eq

theorem of_infinite (h : layout.Body x body) (infinite : x.isInfinite) :
    body = [.symbol .infinitySymbol] := by
  have special : ¬ x.isFinite := fun finite =>
    Binary64.not_isInfinite_of_isFinite finite infinite
  rcases h.special_cases special with ⟨rfl, -⟩ | ⟨_, -, rfl⟩
  · cases infinite
  · rfl

theorem signsFollow (h : layout.Body x body) : SignsFollow body := by
  cases h with
  | nan | infinite | literal => exact .of_no_sign (by simp [Symbol.isSign])
  | scientific s =>
    refine .append (.of_no_sign ?_) ?_
    · intro s mem
      have fraction := List.mem_of_ne_of_mem (Piece.symbol_ne_ofDigits _) mem
      simp [symbol_mem_fractionPieces fraction, Symbol.isSign]
    · obtain ⟨digits, eq | ⟨sign, isSign, eq⟩⟩ := layout.exponentPieces_cases s.exponent
      · rw [eq]
        exact .of_no_sign (by simp [Symbol.isSign])
      · rw [eq]
        exact .exponent sign digits
  | positional _ _ _ _ grouped =>
    refine .append (.of_no_sign fun s mem => ?_) (.of_no_sign fun s mem => ?_)
    · simp [(grouped s mem).1, Symbol.isSign]
    · simp [symbol_mem_fractionPieces mem, Symbol.isSign]

end Body

/-! ## Numbers under a format -/

/-- Which symbols a layout shows for a number, how often and where. -/
structure SymbolUse (layout : Layout) (v : Binary64) (pieces : List Piece) : Prop where
  separator : .symbol .thousandsSeparator ∈ pieces →
    layout.grouping ∧ ¬ layout.exponential ∧ ¬ layout.literal
  point : pieces.count (.symbol .decimalSeparator) ≤ 1
  exponent : pieces.count (.symbol .exponentSymbol) =
    if (v.scale layout.scale).isFinite ∧ layout.exponential ∧ ¬ layout.literal then 1 else 0
  sign : SignsFollow pieces
  nan : pieces.count (.symbol .nanSymbol) = if v = .nan then 1 else 0
  infinity : pieces.count (.symbol .infinitySymbol) =
    if (v.scale layout.scale).isInfinite then 1 else 0
  of_nan : v = .nan → pieces =
    [.text (layout.affixes v).before, .symbol .nanSymbol, .text (layout.affixes v).after]
  of_infinite : (v.scale layout.scale).isInfinite → pieces =
    [.text (layout.affixes v).before, .symbol .infinitySymbol, .text (layout.affixes v).after]

theorem Body.symbolUse (h : layout.Body (v.scale layout.scale) body) (scale : layout.scale ≠ 0) :
    layout.SymbolUse v
      (.text (layout.affixes v).before :: body ++ [.text (layout.affixes v).after]) where
  separator mem := h.of_separator_mem (by simpa using mem)
  point := by simpa using h.count_point_le
  exponent := by simpa using h.count_exponent
  sign := by
    have before : SignsFollow [.text (layout.affixes v).before] := .of_no_sign (by simp)
    have after : SignsFollow [.text (layout.affixes v).after] := .of_no_sign (by simp)
    exact (before.append h.signsFollow).append after
  nan := by
    simpa [Binary64.scale_eq_nan_iff scale] using h.count_nan
  infinity := by simpa using h.count_infinity
  of_nan eq := by
    rw [(Binary64.scale_eq_nan_iff scale).mpr eq] at h
    rw [h.of_nan]
    rfl
  of_infinite eq := by
    rw [h.of_infinite eq]
    rfl

end Layout

/-- A number is laid out by a section that was checked. -/
theorem exists_section_layoutFor (h : NumberFormat.compile p = .ok F) (v : Binary64) :
    ∃ P source s negative, Pattern.parse p = .ok P ∧ s ∈ P.checkedSections ∧
      F.layoutFor v = Layout.ofSections source s negative := by
  obtain ⟨P, parsed, -, rfl⟩ := compile_eq_ok_iff.mp h
  have first : P.positive ∈ P.checkedSections := List.mem_cons_self
  unfold NumberFormat.layoutFor NumberFormat.ofSections
  split
  · cases zero : P.zero with
    | none => exact ⟨P, _, _, _, parsed, first, rfl⟩
    | some s => exact ⟨P, _, s, _, parsed, by simp [Pattern.checkedSections, zero], rfl⟩
  · exact ⟨P, _, _, _, parsed, first, rfl⟩

theorem exists_layoutFor_eq (h : NumberFormat.compile p = .ok F) (v : Binary64) :
    ∃ source s negative, F.layoutFor v = Layout.ofSections source s negative := by
  obtain ⟨P, source, s, negative, -, -, eq⟩ := exists_section_layoutFor h v
  exact ⟨source, s, negative, eq⟩

theorem wellFormed_layoutFor (h : NumberFormat.compile p = .ok F) (v : Binary64) :
    (F.layoutFor v).WellFormed := by
  unfold NumberFormat.layoutFor
  split_ifs
  · cases zero : F.zero with
    | none => exact layout_wellFormed h
    | some z => exact zero_wellFormed h z zero
  · exact layout_wellFormed h

theorem scale_layoutFor_ne_zero (h : NumberFormat.compile p = .ok F) (v : Binary64) :
    (F.layoutFor v).scale ≠ 0 := by
  obtain ⟨source, s, negative, eq⟩ := exists_layoutFor_eq h v
  have scale : (F.layoutFor v).scale = 1 ∨ (F.layoutFor v).scale = 100 ∨
      (F.layoutFor v).scale = 1000 := eq ▸ Layout.scaleOf_cases _
  omega

theorem isSome_bodyPieces?_layoutFor (h : NumberFormat.compile p = .ok F) (v x : Binary64) :
    ((F.layoutFor v).bodyPieces? x).isSome ↔ (F.layoutFor v).InRange x := by
  obtain ⟨source, s, negative, eq⟩ := exists_layoutFor_eq h v
  apply Layout.isSome_bodyPieces?_of_narrow
  rw [eq]
  rfl

theorem exists_body_layoutFor (h : NumberFormat.compile p = .ok F) {v x : Binary64}
    (range : (F.layoutFor v).InRange x) :
    ∃ body, (F.layoutFor v).bodyPieces? x = some body :=
  Option.isSome_iff_exists.mp ((isSome_bodyPieces?_layoutFor h v x).mpr range)

theorem format?_of_body (symbols : Symbols)
    (h : (F.layoutFor v).bodyPieces? (v.scale (F.layoutFor v).scale) = some body) :
    F.format? symbols v = some (Piece.renderAll symbols
      (.text ((F.layoutFor v).affixes v).before :: body ++
        [.text ((F.layoutFor v).affixes v).after])) := by
  rw [NumberFormat.format?_eq_map, NumberFormat.pieces?, h]
  rfl

/-- A number has a text where no number on the way leaves the 32-bit range. -/
theorem isSome_format?_iff (h : NumberFormat.compile p = .ok F) (symbols : Symbols)
    (v : Binary64) : (F.format? symbols v).isSome ↔
      (F.layoutFor v).InRange (v.scale (F.layoutFor v).scale) := by
  rw [NumberFormat.format?_eq_map, Option.isSome_map, NumberFormat.pieces?, Option.isSome_map,
    isSome_bodyPieces?_layoutFor h]

end DecimalPattern
