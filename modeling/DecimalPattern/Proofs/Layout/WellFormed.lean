import DecimalPattern.Proofs.Layout.Check

/-! # Layouts by construction

The bounds of a compiled layout fit together, so that the writing of numbers need not check them.
This rests on what reading can make of a core and on the rules that the core keeps: an integer run
is made of digits and separators, an exponent excludes separators and a significant digit excludes
the point.
-/

namespace DecimalPattern

variable {p source : String} {F : NumberFormat} {s : NumberSection}
  {negative : Option NumberSection} {c : List Char} {core : Core} {tokens : List Token}

/-! ## Cores that keep the rules -/

/-- What the bounds of a layout need to know of its core. -/
structure Core.Regular (core : Core) : Prop where
  integer : ∀ t ∈ core.parts.integer, t.isDigit ∨ t.isGrouping
  ungrouped : core.parts.exponent?.isSome → ∀ t ∈ core.parts.integer, t.isGrouping = false
  pointless : core.parts.hasSignificance → core.parts.fraction? = none

theorem RunChar.isDigit_or_isGrouping {x : Char} {t : Token} (h : RunChar x t) :
    t.isDigit ∨ t.isGrouping := by
  cases h <;> simp [Token.isDigit, Token.isGrouping]

theorem CoreText.regular (h : CoreText c core) (keeps : CoreRule.firstBroken? core = none) :
    core.Regular := by
  have kept : ∀ rule, CoreRule.brokenBy core.parts rule = false := by
    simpa [CoreRule.firstBroken?, CoreRule.mem_all] using keeps
  constructor
  case integer =>
    intro t ht
    obtain ⟨i, hi, rfl⟩ := List.mem_iff_getElem.mp ht
    exact (h.run_integer.get (h.run_integer.length_eq ▸ hi) hi).isDigit_or_isGrouping
  case ungrouped =>
    intro exponential t ht
    have := kept .exponentWithoutGrouping
    simp only [CoreRule.brokenBy, exponential, Bool.true_and, Core.Parts.hasGrouping,
      List.any_eq_false, List.mem_append] at this
    simpa using this t (.inl ht)
  case pointless =>
    intro significance
    have := kept .significanceWithoutPoint
    simpa [CoreRule.brokenBy, significance] using this

/-! ## Counts of tokens -/

namespace Layout

theorem requiredCount_le_digitCount (tokens : List Token) :
    requiredCount tokens ≤ digitCount tokens := by
  apply List.countP_mono_left
  intro t _ required
  cases t <;> simp_all [Token.isRequired, Token.isDigit]

theorem digitCount_pos_iff : 0 < digitCount tokens ↔ ∃ t ∈ tokens, t.isDigit :=
  List.countP_pos_iff

theorem groupSizes_of_ungrouped (h : ∀ t ∈ tokens, t.isGrouping = false) :
    groupSizes tokens = (0, 0) := by
  rw [groupSizes, List.splitOnP_eq_singleton h]
  rfl

/-- The first run of significant digits is not empty where there is one. -/
theorem significantBounds_le (tokens : List Token) :
    1 ≤ (significantBounds tokens).1 ∧
      (significantBounds tokens).1 ≤ (significantBounds tokens).2 := by
  cases run : tokens.dropWhile fun t => !t.isSignificant with
  | nil => simp [significantBounds, run]
  | cons t rest =>
    have first : t.isSignificant := by
      have := List.head?_dropWhile_not (fun t : Token => !t.isSignificant) tokens
      simpa [run] using this
    simp [significantBounds, run, first]

end Layout

namespace Core.Regular

theorem fraction_eq_nil (h : core.Regular) (significance : core.parts.hasSignificance) :
    core.parts.fraction = [] := by
  rw [Parts.fraction, h.pointless significance]
  rfl

/-- An integer run whose digits are counted has a digit unless it is empty. -/
theorem exists_isDigit (h : core.Regular) (ne : core.parts.integer ≠ [])
    (counted : core.parts.exponent?.isSome ∨ core.parts.hasSignificance) :
    ∃ t ∈ core.parts.integer, t.isDigit := by
  rcases counted with exponential | significance
  · obtain ⟨t, ht⟩ := List.exists_mem_of_ne_nil _ ne
    refine ⟨t, ht, (h.integer t ht).resolve_right ?_⟩
    simp [h.ungrouped exponential t ht]
  · obtain ⟨t, ht, significant⟩ : ∃ t ∈ core.parts.integer, t.isSignificant := by
      simpa [Parts.hasSignificance, h.fraction_eq_nil significance] using significance
    refine ⟨t, ht, (h.integer t ht).resolve_right fun grouping => ?_⟩
    cases t <;> simp_all [Token.isSignificant, Token.isGrouping]

theorem integerMin_le (h : core.Regular)
    (counted : core.parts.exponent?.isSome ∨ core.parts.hasSignificance) :
    (if core.parts.integer.isEmpty then 0 else max 1 (Layout.requiredCount core.parts.integer)) ≤
      Layout.digitCount core.parts.integer := by
  split
  next => exact Nat.zero_le _
  next ne =>
    have digit := h.exists_isDigit (by simpa using ne) counted
    exact max_le (Layout.digitCount_pos_iff.mpr digit) (Layout.requiredCount_le_digitCount _)

end Core.Regular

/-! ## Layouts -/

/-- How the fields of a layout depend on one another. -/
structure Layout.WellFormed (l : Layout) : Prop where
  fraction_le : l.fractionMin ≤ l.fractionMax
  integerMax_isSome : l.integerMax.isSome ↔ l.exponential ∨ l.significance
  integer_le : ∀ most ∈ l.integerMax, l.integerMin ≤ most
  significantMax_isSome : l.significantMax.isSome ↔ l.significance
  significantMin_pos : 1 ≤ l.significantMin
  significant_le : ∀ most ∈ l.significantMax, l.significantMin ≤ most
  of_exponential : l.exponential →
    l.primaryGroup = 0 ∧ l.secondaryGroup = 0 ∧ l.grouping = false
  of_significance : l.significance → l.exponential = false →
    l.fractionMin = 0 ∧ l.fractionMax = 0
  of_scientific : l.exponential → l.significance → l.integerMin = 1 ∧ l.integerMax = some 1 ∧
    l.fractionMin = l.significantMin ∧ l.significantMax = some l.fractionMax
  exponential_of : l.exponentPlus ∨ 0 < l.exponentMin → l.exponential
  of_literal : l.literal → l.exponential = false ∧ l.significance = false ∧ l.grouping = false ∧
    l.integerMin = 0 ∧ l.fractionMin = 0 ∧ l.fractionMax = 0
  grouping_iff : l.grouping ↔ 0 < l.primaryGroup ∨ 0 < l.secondaryGroup
  scale_cases : l.scale = 1 ∨ l.scale = 100 ∨ l.scale = 1000

theorem Layout.WellFormed.literal_eq_false {l : Layout} (h : l.WellFormed)
    (shown : l.exponential ∨ l.significance) : l.literal = false := by
  by_contra literal
  obtain ⟨exponential, significance, -⟩ := h.of_literal (by simpa using literal)
  rw [exponential, significance] at shown
  simp at shown

theorem Layout.scaleOf_cases (used : List NumberSection) :
    scaleOf used = 1 ∨ scaleOf used = 100 ∨ scaleOf used = 1000 := by
  unfold scaleOf
  split_ifs <;> simp

theorem Core.Regular.wellFormed (h : s.core.Regular) :
    (Layout.ofSections source s negative).WellFormed := by
  have bounds := Layout.significantBounds_le s.core.parts.integer
  have required := Layout.requiredCount_le_digitCount
  constructor
  case fraction_le =>
    dsimp only [Layout.ofSections]
    split_ifs with scientific significance
    · exact bounds.2
    · exact le_rfl
    · exact required _
  case integerMax_isSome =>
    dsimp only [Layout.ofSections]
    cases s.core.parts.exponent?.isSome <;> cases s.core.parts.hasSignificance <;> simp
  case integer_le =>
    intro most bound
    dsimp only [Layout.ofSections] at bound ⊢
    by_cases scientific : (s.core.parts.exponent?.isSome && s.core.parts.hasSignificance) = true
    · rw [if_pos scientific] at bound ⊢
      exact (Option.some.inj bound).le
    · rw [if_neg scientific] at bound ⊢
      split at bound
      next counted =>
        obtain rfl := Option.some.inj bound
        exact h.integerMin_le (by simpa using counted)
      next => contradiction
  case significantMax_isSome =>
    dsimp only [Layout.ofSections]
    cases s.core.parts.hasSignificance <;> simp
  case significantMin_pos =>
    dsimp only [Layout.ofSections]
    split_ifs
    · exact bounds.1
    · exact le_rfl
  case significant_le =>
    dsimp only [Layout.ofSections]
    cases s.core.parts.hasSignificance
    · simp
    · simpa using bounds.2
  case of_exponential =>
    intro exponential
    have sizes := Layout.groupSizes_of_ungrouped (h.ungrouped exponential)
    simp [Layout.ofSections, sizes]
  case of_significance =>
    intro significance plain
    have significance : s.core.parts.hasSignificance = true := significance
    have plain : s.core.parts.exponent?.isSome = false := plain
    have fraction := h.fraction_eq_nil significance
    simp [Layout.ofSections, plain, fraction, Layout.requiredCount, Layout.digitCount]
  case of_scientific =>
    intro exponential significance
    have exponential : s.core.parts.exponent?.isSome = true := exponential
    have significance : s.core.parts.hasSignificance = true := significance
    simp [Layout.ofSections, exponential, significance]
  case exponential_of =>
    dsimp only [Layout.ofSections]
    cases s.core.parts.exponent? <;> simp
  case of_literal =>
    intro literal
    have empty : s.core = [] := List.isEmpty_iff.mp literal
    have parts : s.core.parts = ⟨[], none, none⟩ := by
      rw [empty]
      rfl
    have sizes : Layout.groupSizes [] = (0, 0) := Layout.groupSizes_of_ungrouped (by simp)
    simp [Layout.ofSections, parts, sizes, Core.Parts.hasSignificance, Core.Parts.fraction,
      Layout.requiredCount, Layout.digitCount]
  case grouping_iff => simp [Layout.ofSections]
  case scale_cases => exact Layout.scaleOf_cases _

/-! ## Formats -/

/-- The format that writes by a layout alone. -/
def NumberFormat.ofLayout (l : Layout) : NumberFormat := ⟨l, none, none⟩

/-- The format for zero, where the pattern has a section for it. -/
def NumberFormat.forZero? (F : NumberFormat) : Option NumberFormat := F.zero.map ofLayout

/-- Every layout of a format is well-formed, and the format for zero has no further ones. -/
structure NumberFormat.WellFormed (F : NumberFormat) : Prop where
  layout : F.layout.WellFormed
  zero : ∀ Z ∈ F.forZero?, Z.layout.WellFormed ∧ Z.zero = none ∧ Z.text = none

theorem regular_of_mem_checked {P : Pattern} (h : Pattern.parse p = .ok P)
    (keeps : ∀ s ∈ P.checkedSections, CoreRule.firstBroken? s.core = none)
    (hs : s ∈ P.checkedSections) : s.core.Regular := by
  obtain ⟨a, c, b, -, text⟩ := exists_decomposition_of_mem h (P.mem_numberSections_of_checked hs)
  exact text.regular (keeps s hs)

theorem layout_wellFormed (h : NumberFormat.compile p = .ok F) : F.layout.WellFormed := by
  obtain ⟨P, parsed, keeps, rfl⟩ := compile_eq_ok_iff.mp h
  exact (regular_of_mem_checked parsed keeps List.mem_cons_self).wellFormed

theorem zero_wellFormed (h : NumberFormat.compile p = .ok F) : ∀ z ∈ F.zero, z.WellFormed := by
  obtain ⟨P, parsed, keeps, rfl⟩ := compile_eq_ok_iff.mp h
  intro z hz
  obtain ⟨s, hs, rfl⟩ := Option.map_eq_some_iff.mp hz
  have mem : s ∈ P.checkedSections := by simp [Pattern.checkedSections, hs]
  exact (regular_of_mem_checked parsed keeps mem).wellFormed

/-- Every format that is compiled is well-formed. -/
theorem compile_wellFormed (h : NumberFormat.compile p = .ok F) : F.WellFormed := by
  refine ⟨layout_wellFormed h, fun Z hZ => ?_⟩
  obtain ⟨z, hz, rfl⟩ := Option.map_eq_some_iff.mp hZ
  exact ⟨zero_wellFormed h z hz, rfl, rfl⟩

theorem compile_wellFormed_of_scientific_zero :
    let P := Pattern.ofTexts "#,##,##0.0#;;@@#E+00%;@" "#,##,##0.0#".toList
      [[], "@@#E+00%".toList, "@".toList]
    NumberFormat.compile "#,##,##0.0#;;@@#E+00%;@" = .ok (.ofSections P) ∧
      (NumberFormat.ofSections P).WellFormed ∧
      ∃ Z ∈ (NumberFormat.ofSections P).forZero?, Z.layout.exponential ∧ Z.layout.significance := by
  intro P
  have parsed : Pattern.parse "#,##,##0.0#;;@@#E+00%;@" = .ok P :=
    Pattern.parse_eq_ok (by decide) (by decide) (by decide)
  have compiled : NumberFormat.compile "#,##,##0.0#;;@@#E+00%;@" = .ok (.ofSections P) :=
    compile_eq_ok_iff.mpr ⟨P, parsed, by decide, rfl⟩
  exact ⟨compiled, compile_wellFormed compiled, _, rfl, by decide⟩

end DecimalPattern
