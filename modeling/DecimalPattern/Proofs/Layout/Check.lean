import DecimalPattern.Layout.Compile
import DecimalPattern.Proofs.Pattern.CoreRule
import DecimalPattern.Proofs.Pattern.Decomposition

/-! # Checking patterns

A pattern that can be read has a format unless the core of a section breaks a rule. The sections
are checked in order, and the first that breaks a rule is reported for the first rule it breaks,
whatever is wrong with the rest of it or with later sections.
-/

namespace DecimalPattern

variable {p : String} {P : Pattern} {F : NumberFormat} {s : NumberSection}
  {sections : List NumberSection} {rule : CoreRule} {error : PatternError}

/-! ## The checks of sections -/

/-- The sections with a core to check, in the order of the checks. -/
def Pattern.checkedSections (P : Pattern) : List NumberSection :=
  P.positive :: ((P.negative.filter fun s => !s.isLiteral).toList ++ P.zero.toList)

/-- The format of a pattern whose sections need no check. -/
def NumberFormat.ofSections (P : Pattern) : NumberFormat where
  layout := .ofSections P.source P.positive (P.negative.filter fun s => !s.isLiteral)
  zero := P.zero.map fun s => .ofSections s.source s none
  text := P.text

theorem Pattern.mem_numberSections_of_checked (h : s ∈ P.checkedSections) :
    s ∈ P.numberSections := by
  rcases List.mem_cons.mp h with rfl | h
  · exact List.mem_cons_self
  · apply List.mem_cons_of_mem
    rcases List.mem_append.mp h with h | h
    · exact List.mem_append_left _ (by simp_all)
    · exact List.mem_append_right _ h

theorem Layout.compile_eq (source : String) (positive : NumberSection)
    (negative : Option NumberSection) :
    compile source positive negative = do
      forM (positive :: (negative.filter fun s => !s.isLiteral).toList) NumberSection.check
      return ofSections source positive (negative.filter fun s => !s.isLiteral) := by
  simp only [compile]
  cases negative.filter fun s => !s.isLiteral <;> simp

theorem NumberFormat.ofPattern_eq (P : Pattern) :
    ofPattern P = do
      forM P.checkedSections NumberSection.check
      return ofSections P := by
  obtain ⟨source, positive, negative, zero, text⟩ := P
  simp only [ofPattern, Layout.compile_eq, Pattern.checkedSections, ofSections]
  cases zero <;> simp

theorem NumberSection.check_eq_ok_iff :
    s.check = .ok () ↔ CoreRule.firstBroken? s.core = none := by
  unfold check
  split
  next h => simp [h]
  next h => simp [h]

theorem NumberSection.check_eq_error_iff :
    s.check = .error error ↔ ∃ rule, CoreRule.firstBroken? s.core = some rule ∧
      error = .brokenRule rule (rule.fragment s.core).render := by
  unfold check
  split
  next h => simp [h, eq_comm]
  next h => simp [h]

theorem forM_check_eq_ok_iff :
    forM sections NumberSection.check = .ok () ↔ ∀ s ∈ sections, s.check = .ok () := by
  induction sections with
  | nil => simp [pure, Except.pure]
  | cons s sections ih =>
    rw [List.forM_cons, List.forall_mem_cons, ← ih]
    cases h : s.check with
    | error e => simp [bind, Except.bind]
    | ok => simp [bind, Except.bind]

theorem forM_check_eq_error_iff :
    forM sections NumberSection.check = .error error ↔ ∃ before s after,
      sections = before ++ s :: after ∧ (∀ t ∈ before, t.check = .ok ()) ∧
        s.check = .error error := by
  induction sections with
  | nil => simp [pure, Except.pure]
  | cons t sections ih =>
    rw [List.forM_cons]
    constructor
    · intro h
      cases head : t.check with
      | error e =>
        simp only [head, bind, Except.bind] at h
        exact ⟨[], t, sections, rfl, by simp, by rw [head, h]⟩
      | ok =>
        simp only [head, bind, Except.bind] at h
        obtain ⟨before, s, after, rfl, keeps, breaks⟩ := ih.mp h
        exact ⟨t :: before, s, after, rfl, List.forall_mem_cons.mpr ⟨head, keeps⟩, breaks⟩
    · rintro ⟨before, s, after, eq, keeps, breaks⟩
      cases before with
      | nil =>
        obtain ⟨rfl, rfl⟩ := List.cons.inj eq
        rw [breaks]
        rfl
      | cons u before =>
        obtain ⟨rfl, rfl⟩ := List.cons.inj eq
        obtain ⟨head, keeps⟩ := List.forall_mem_cons.mp keeps
        rw [head]
        exact ih.mpr ⟨before, s, after, rfl, keeps, breaks⟩

/-! ## Formats that are compiled -/

theorem compile_eq_of_parse (h : Pattern.parse p = .ok P) :
    NumberFormat.compile p = do
      forM P.checkedSections NumberSection.check
      return NumberFormat.ofSections P := by
  rw [NumberFormat.compile, h]
  exact NumberFormat.ofPattern_eq P

theorem compile_eq_ok_iff :
    NumberFormat.compile p = .ok F ↔ ∃ P, Pattern.parse p = .ok P ∧
      (∀ s ∈ P.checkedSections, CoreRule.firstBroken? s.core = none) ∧
        NumberFormat.ofSections P = F := by
  cases h : Pattern.parse p with
  | error e => simp [NumberFormat.compile, h, bind, Except.bind]
  | ok P =>
    have keeps := @forM_check_eq_ok_iff P.checkedSections
    simp only [NumberSection.check_eq_ok_iff] at keeps
    rw [compile_eq_of_parse h]
    cases checks : forM P.checkedSections NumberSection.check with
    | error e => simp [← keeps, checks, bind, Except.bind]
    | ok => simp [← keeps, checks, bind, Except.bind, pure, Except.pure]

/-- A text with balanced quotes and up to four sections is compiled if they keep the rules. -/
theorem compile_eq_ok (ne : p ≠ "") (even : Even (p.toList.count '\''))
    (few : (cutSections false p.toList).2.length ≤ 3)
    (keeps : ∀ s ∈ (Pattern.ofTexts p (cutSections false p.toList).1
      (cutSections false p.toList).2).checkedSections, CoreRule.firstBroken? s.core = none) :
    NumberFormat.compile p = .ok (NumberFormat.ofSections
      (Pattern.ofTexts p (cutSections false p.toList).1 (cutSections false p.toList).2)) :=
  compile_eq_ok_iff.mpr ⟨_, Pattern.parse_eq_ok ne even few, keeps, rfl⟩

/-- The same for sections that are given as texts. -/
theorem compile_eq_ok_of_sections {first : List Char} {others : List (List Char)} (ne : p ≠ "")
    (s : Sections p.toList first others []) (few : others.length ≤ 3)
    (keeps : ∀ s ∈ (Pattern.ofTexts p first others).checkedSections,
      CoreRule.firstBroken? s.core = none) :
    NumberFormat.compile p = .ok (NumberFormat.ofSections (Pattern.ofTexts p first others)) := by
  refine compile_eq_ok_iff.mpr ⟨_, ?_, keeps, rfl⟩
  rw [parse_eq ne s, if_neg (by simp), if_neg (by omega)]

theorem compile_eq_error_iff (h : Pattern.parse p = .ok P) :
    NumberFormat.compile p = .error error ↔
      forM P.checkedSections NumberSection.check = .error error := by
  rw [compile_eq_of_parse h]
  cases forM P.checkedSections NumberSection.check <;> simp [bind, Except.bind, pure, Except.pure]

/-! ## Rules and sections -/

/-- The core is cut out of the text of its section in one way only. -/
theorem exists_decomposition_of_mem (h : Pattern.parse p = .ok P) (hs : s ∈ P.numberSections) :
    ∃ a c b, Decomposition s.source.toList a c b ∧ CoreText c s.core := by
  obtain ⟨u, text, rfl⟩ := exists_text_of_mem h hs
  obtain ⟨a, c, b, core, parts⟩ := exists_sectionParts u
  refine ⟨a, c, b, ?_, ?_⟩
  · rw [NumberSection.source_ofText text, String.toList_ofList]
    exact parts.decomposition
  · rw [parts.ofText_eq text]
    exact parts.text

/-- The text of a section's core breaks a rule. -/
def NumberSection.Breaks (s : NumberSection) (rule : CoreRule) : Prop :=
  ∃ a c b, Decomposition s.source.toList a c b ∧ rule.BrokenIn c

theorem breaks_iff {a c b : List Char} (d : Decomposition s.source.toList a c b) :
    s.Breaks rule ↔ rule.BrokenIn c := by
  constructor
  · rintro ⟨a', c', b', d', broken⟩
    obtain ⟨-, rfl, -⟩ := d.unique d'
    exact broken
  · exact fun broken => ⟨a, c, b, d, broken⟩

theorem check_eq_ok_iff_of_mem (h : Pattern.parse p = .ok P) (hs : s ∈ P.checkedSections) :
    s.check = .ok () ↔ ∀ rule, ¬ s.Breaks rule := by
  obtain ⟨a, c, b, d, text⟩ := exists_decomposition_of_mem h (P.mem_numberSections_of_checked hs)
  simp only [NumberSection.check_eq_ok_iff, CoreRule.firstBroken?_eq_none_iff text, breaks_iff d]

theorem check_eq_error_iff_of_mem (h : Pattern.parse p = .ok P) (hs : s ∈ P.checkedSections) :
    s.check = .error error ↔ ∃ rule : CoreRule,
      (s.Breaks rule ∧ ∀ r : CoreRule, r.number < rule.number → ¬ s.Breaks r) ∧
        error = .brokenRule rule (rule.fragment s.core).render := by
  obtain ⟨a, c, b, d, text⟩ := exists_decomposition_of_mem h (P.mem_numberSections_of_checked hs)
  simp only [NumberSection.check_eq_error_iff, CoreRule.firstBroken?_eq_some_iff text, breaks_iff d]

/-- The first section that breaks a rule, with the first rule that it breaks. -/
structure FirstBroken (sections : List NumberSection) (s : NumberSection) (rule : CoreRule) :
    Prop where
  section_first : ∃ before after, sections = before ++ s :: after ∧
    ∀ t ∈ before, ∀ rule, ¬ t.Breaks rule
  broken : s.Breaks rule
  rule_first : ∀ r : CoreRule, r.number < rule.number → ¬ s.Breaks r

/-- A pattern that can be read is refused only for a broken rule, the first one of the first
section that breaks one. -/
theorem compile_by_rules (h : Pattern.parse p = .ok P) :
    ((∃ F, NumberFormat.compile p = .ok F) ↔
      ∀ s ∈ P.checkedSections, ∀ rule, ¬ s.Breaks rule) ∧
    ∀ error, NumberFormat.compile p = .error error ↔
      ∃ s rule, FirstBroken P.checkedSections s rule ∧
        error = .brokenRule rule (rule.fragment s.core).render := by
  have keeps : ∀ s ∈ P.checkedSections, (s.check = .ok () ↔ ∀ rule, ¬ s.Breaks rule) :=
    fun s hs => check_eq_ok_iff_of_mem h hs
  constructor
  · rw [← forall₂_congr keeps]
    constructor
    · rintro ⟨F, compiled⟩ s hs
      obtain ⟨P', parsed, holds, -⟩ := compile_eq_ok_iff.mp compiled
      obtain rfl := Except.ok.inj (h.symm.trans parsed)
      exact NumberSection.check_eq_ok_iff.mpr (holds s hs)
    · intro holds
      refine ⟨_, compile_eq_ok_iff.mpr ⟨P, h, fun s hs => ?_, rfl⟩⟩
      exact NumberSection.check_eq_ok_iff.mp (holds s hs)
  · intro error
    rw [compile_eq_error_iff h, forM_check_eq_error_iff]
    constructor
    · rintro ⟨before, s, after, eq, first, refused⟩
      have hs : s ∈ P.checkedSections := by simp [eq]
      obtain ⟨rule, ⟨broken, lowest⟩, rfl⟩ := (check_eq_error_iff_of_mem h hs).mp refused
      refine ⟨s, rule, ⟨⟨before, after, eq, fun t ht => ?_⟩, broken, lowest⟩, rfl⟩
      exact (keeps t (eq ▸ List.mem_append_left _ ht)).mp (first t ht)
    · rintro ⟨s, rule, ⟨⟨before, after, eq, first⟩, broken, lowest⟩, rfl⟩
      have hs : s ∈ P.checkedSections := by simp [eq]
      refine ⟨before, s, after, eq, fun t ht => ?_, ?_⟩
      · exact (keeps t (eq ▸ List.mem_append_left _ ht)).mpr (first t ht)
      · exact (check_eq_error_iff_of_mem h hs).mpr ⟨rule, ⟨broken, lowest⟩, rfl⟩

theorem compile_by_rules_of_three_broken :
    let P := Pattern.ofTexts "#,##0.0#;@.0#0E0;0#" "#,##0.0#".toList
      ["@.0#0E0".toList, "0#".toList]
    Pattern.parse "#,##0.0#;@.0#0E0;0#" = .ok P ∧
      (∃ s, FirstBroken P.checkedSections s .fractionOrder) ∧
        NumberFormat.compile "#,##0.0#;@.0#0E0;0#" =
          .error (.brokenRule .fractionOrder "0#0") := by
  intro P
  have parsed : Pattern.parse "#,##0.0#;@.0#0E0;0#" = .ok P :=
    Pattern.parse_eq_ok (by decide) (by decide) (by decide)
  have refused : NumberFormat.compile "#,##0.0#;@.0#0E0;0#" =
      .error (.brokenRule .fractionOrder "0#0") := by
    rw [NumberFormat.compile, parsed]
    decide
  obtain ⟨s, rule, first, eq⟩ := ((compile_by_rules parsed).2 _).mp refused
  obtain ⟨rfl, -⟩ := PatternError.brokenRule.inj eq
  exact ⟨parsed, ⟨s, first⟩, refused⟩

end DecimalPattern
