import DecimalPattern.Proofs.Format.Digits
import DecimalPattern.Proofs.Format.Sign
import DecimalPattern.Proofs.Layout.Negative

/-! # Sections for zero

The third section of a pattern is a pattern of its own, by which both zeros are written. Every other
number, and not-a-number, is written as by the first two sections alone.
-/

namespace DecimalPattern

-- Powers of natural numbers are the built-in ones, also beside the monoids of algebra.
attribute [local instance (2000)] instPowNat

variable {p q : String} {F G Z : NumberFormat} {v : Binary64} {symbols : Symbols}
  {first second third : List Char} {others : List (List Char)}

/-- The writing of numbers does not look at the text of the pattern. -/
theorem Layout.format?_withSource (source : String) (layout : Layout) (symbols : Symbols)
    (v : Binary64) : (layout.withSource source).format? symbols v = layout.format? symbols v := rfl

namespace NumberFormat

theorem layoutFor_of_ne_zero (F : NumberFormat) (h : v.isZero = false) :
    F.layoutFor v = F.layout := if_neg (by simp [h])

/-- Zeros are written by the format for zero. -/
theorem format?_of_forZero? (zero : F.forZero? = some Z) (h : v.isZero) :
    F.format? symbols v = Z.format? symbols v := by
  obtain ⟨layout, eq, rfl⟩ := Option.map_eq_some_iff.mp zero
  have used : F.layoutFor v = layout := by
    rw [layoutFor, if_pos h, eq]
    rfl
  rw [format?, format?, used, layoutFor_of_single rfl]
  rfl

/-! ## The sections of a pattern by themselves -/

/-- A pattern with a section for zero is compiled from the texts between its semicolons. -/
theorem eq_ofSections_of_cut (h : compile p = .ok F)
    (cut : sectionTexts p.toList = first :: second :: third :: others) :
    (∀ u ∈ first :: second :: third :: others, SectionText u) ∧
      (∀ s ∈ (Pattern.ofTexts p first (second :: third :: others)).checkedSections,
        CoreRule.firstBroken? s.core = none) ∧
      F = ofSections (.ofTexts p first (second :: third :: others)) := by
  have ne : p ≠ "" := by
    rintro rfl
    simp [sectionTexts, cutSections] at cut
  obtain ⟨P, parsed, keeps, rfl⟩ := compile_eq_ok_iff.mp h
  obtain ⟨u, us, s, -, rfl⟩ := exists_sections_of_parse ne parsed
  rw [s.sectionTexts_eq] at cut
  obtain ⟨rfl, rfl⟩ := List.cons.inj cut
  exact ⟨s.texts, keeps, rfl⟩

/-- The sections of the third text alone are checked with those of the whole pattern. -/
theorem mem_checkedSections_of_third {s : NumberSection}
    (hs : s ∈ (Pattern.ofTexts q third []).checkedSections) :
    s ∈ (Pattern.ofTexts p first (second :: third :: others)).checkedSections := by
  obtain rfl : s = .ofText third := by simpa [Pattern.checkedSections, Pattern.ofTexts] using hs
  simp [Pattern.checkedSections, Pattern.ofTexts]

theorem mem_checkedSections_of_pair {s : NumberSection}
    (hs : s ∈ (Pattern.ofTexts q first [second]).checkedSections) :
    s ∈ (Pattern.ofTexts p first (second :: others)).checkedSections := by
  rcases List.mem_cons.mp hs with rfl | hs
  · exact List.mem_cons_self
  · have negative :
        s ∈ ((some (NumberSection.ofText second)).filter fun s => !s.isLiteral).toList :=
      (List.mem_append.mp hs).resolve_right List.not_mem_nil
    exact List.mem_cons_of_mem _ (List.mem_append_left _ negative)

theorem forZero?_ofSections (text : SectionText third) :
    (ofSections (.ofTexts p first (second :: third :: others))).forZero? =
      some (ofSections (.ofTexts (String.ofList third) third [])) := by
  have source := NumberSection.source_ofText text
  change some (ofLayout (.ofSections (NumberSection.ofText third).source _ none)) = _
  rw [source]
  rfl

theorem layout_ofSections (p : String) {q : String} :
    (ofSections (.ofTexts p first (second :: others))).layout =
      (ofSections (.ofTexts q first [second])).layout.withSource p := by
  simp only [ofSections, Layout.ofSections_withSource]
  rfl

/-- The section for zero is compiled as a pattern of its own and writes both zeros, and the first
two sections write everything else. -/
theorem zero_section_apart (h : compile p = .ok F)
    (cut : sectionTexts p.toList = first :: second :: third :: others) (ne : third ≠ []) :
    ∃ Z G, compile (String.ofList third) = .ok Z ∧
      compile (String.ofList (first ++ ';' :: second)) = .ok G ∧ F.forZero? = some Z ∧
      ∀ symbols,
        (∀ negative, F.format? symbols (.signed negative .zero) =
          Z.format? symbols (.signed false .zero)) ∧
        (∀ v : Binary64, v.isZero = false → F.format? symbols v = G.format? symbols v) ∧
        (p.length < 2 ^ (30 : ℕ) → ∀ v, (F.format? symbols v).isSome) := by
  obtain ⟨texts, keeps, eq⟩ := eq_ofSections_of_cut h cut
  have textThird : SectionText third := texts _ (by simp)
  have textPair := (texts first (by simp)).sections_pair (texts second (by simp))
  have compiledZ := compile_eq_ok_of_sections (p := String.ofList third) (by simpa using ne)
    (by simpa using textThird.sections) (by simp)
    fun s hs => keeps s (mem_checkedSections_of_third hs)
  have compiledG := compile_eq_ok_of_sections (p := String.ofList (first ++ ';' :: second))
    (by simp) (by simpa using textPair) (by simp)
    fun s hs => keeps s (mem_checkedSections_of_pair hs)
  have zero := @forZero?_ofSections p first second third others textThird
  rw [← eq] at zero
  have isZero : (Binary64.signed false .zero).isZero := Magnitude.isZero_zero
  refine ⟨_, _, compiledZ, compiledG, zero, fun symbols => ⟨fun negative => ?_, fun v hv => ?_,
    fun short v => (isSome_format?_iff h symbols v).mpr (inRange_of_short h short v _)⟩⟩
  · rw [← format?_of_forZero? zero isZero]
    cases negative
    · rfl
    · exact format?_of_isZero F symbols Magnitude.isZero_zero
  · rw [eq, format?, format?, layoutFor_of_ne_zero _ hv, layoutFor_of_ne_zero _ hv,
      layout_ofSections p, Layout.format?_withSource]

theorem zero_section_apart_of_percent :
    let F := ofSections (.ofTexts "#,##0.0#;;@@#E+00%;@" "#,##0.0#".toList
      [[], "@@#E+00%".toList, "@".toList])
    compile "#,##0.0#;;@@#E+00%;@" = .ok F ∧
      sectionTexts "#,##0.0#;;@@#E+00%;@".toList =
        ["#,##0.0#".toList, [], "@@#E+00%".toList, "@".toList] ∧
      "@@#E+00%".toList ≠ [] ∧
      ∃ Z G, compile "@@#E+00%" = .ok Z ∧ compile "#,##0.0#;" = .ok G ∧ F.forZero? = some Z ∧
        (∃ text, F.format? .english (.signed true .zero) = some text ∧
          Z.format? .english (.signed false .zero) = some text) ∧
        ∃ text, F.format? .english .nan = some text ∧ G.format? .english .nan = some text := by
  intro F
  have compiled : compile "#,##0.0#;;@@#E+00%;@" = .ok F :=
    compile_eq_ok (by decide) (by decide) (by decide) (by decide)
  have cut : sectionTexts "#,##0.0#;;@@#E+00%;@".toList =
      ["#,##0.0#".toList, [], "@@#E+00%".toList, "@".toList] := by decide
  have ne : "@@#E+00%".toList ≠ [] := by decide
  obtain ⟨Z, G, compiledZ, compiledG, zero, written⟩ := zero_section_apart compiled cut ne
  obtain ⟨zeros, others, texts⟩ := written .english
  obtain ⟨text, shown⟩ :=
    Option.isSome_iff_exists.mp (texts (by decide) (.signed true .zero))
  obtain ⟨other, shown'⟩ := Option.isSome_iff_exists.mp (texts (by decide) .nan)
  exact ⟨compiled, cut, ne, Z, G, compiledZ, compiledG, zero,
    ⟨text, shown, (zeros true).symm.trans shown⟩, other, shown', (others .nan rfl).symm.trans shown'⟩

end NumberFormat

end DecimalPattern
