import DecimalPattern.Proofs.Layout.WellFormed
import DecimalPattern.Proofs.Pattern.Separators

/-! # Separators and bounds

The commas of a core decide the groups, and two lower bounds besides. An integer run of commas alone
is not empty and has a digit at least, and a comma inside a run of `@` ends it. Everything else in a
layout is what it is without the commas.
-/

namespace DecimalPattern

variable {f : Token → Bool} {q : Char → Bool} {p source source' : String} {F : NumberFormat}
  {a b c cs first : List Char} {others : List (List Char)} {ts : List Token} {core : Core}
  {s : NumberSection} {negative : Option NumberSection}

/-! ## Counts -/

namespace Layout

theorem countP_ungrouped (skipped : f .grouping = false) (ts : List Token) :
    (Core.ungrouped ts).countP f = ts.countP f := by
  rw [Core.ungrouped, List.countP_filter]
  refine List.countP_congr fun t _ => ?_
  by_cases grouping : t = .grouping
  · simp [grouping, skipped]
  · simp [Token.isGrouping, grouping]

theorem digitCount_ungrouped (ts : List Token) : digitCount (Core.ungrouped ts) = digitCount ts :=
  countP_ungrouped rfl ts

theorem requiredCount_ungrouped (ts : List Token) :
    requiredCount (Core.ungrouped ts) = requiredCount ts := countP_ungrouped rfl ts

/-! ## Runs of significant digits -/

/-- The tokens from the first significant digit on. -/
def significantRun (ts : List Token) : List Token := ts.dropWhile fun t => !t.isSignificant

theorem isGrouping_of_isSignificant {t : Token} (h : t.isSignificant) : t.isGrouping = false := by
  cases t <;> simp_all [Token.isSignificant, Token.isGrouping]

/-- The significant digits that only separators part from the first run. -/
def laterRun (ts : List Token) : List Token :=
  (Core.ungrouped ((significantRun ts).dropWhile Token.isSignificant)).takeWhile Token.isSignificant

theorem significantRun_ungrouped (ts : List Token) :
    significantRun (Core.ungrouped ts) = Core.ungrouped (significantRun ts) := by
  induction ts with
  | nil => rfl
  | cons t ts ih =>
    by_cases significant : t.isSignificant
    · have kept := isGrouping_of_isSignificant significant
      simp [significantRun, Core.ungrouped, significant, kept]
    · cases grouping : t.isGrouping <;>
        simpa [significantRun, Core.ungrouped, significant, grouping] using ih

theorem head_significantRun {t : Token} {rest : List Token} (h : significantRun ts = t :: rest) :
    t.isSignificant := by
  have first := List.head?_dropWhile_not (fun t : Token => !t.isSignificant) ts
  rw [significantRun] at h
  simpa [h] using first

theorem digitCount_eq_add (ts : List Token) :
    digitCount ts = (ts.takeWhile Token.isSignificant).length +
      digitCount (ts.dropWhile Token.isSignificant) := by
  have digits : digitCount (ts.takeWhile Token.isSignificant) =
      (ts.takeWhile Token.isSignificant).length := by
    refine List.countP_eq_length.mpr fun t ht => ?_
    have significant := List.mem_takeWhile_imp ht
    cases t <;> simp_all [Token.isSignificant, Token.isDigit]
  have parts := @List.takeWhile_append_dropWhile _ Token.isSignificant ts
  rw [← digits, digitCount, digitCount, digitCount, ← List.countP_append, parts]

theorem significantBounds_eq (ts : List Token) :
    significantBounds ts =
      (max 1 ((significantRun ts).takeWhile Token.isSignificant).length,
        max 1 (digitCount (significantRun ts))) := by
  rw [digitCount_eq_add, significantBounds, ← significantRun]
  cases run : significantRun ts with
  | nil => rfl
  | cons t rest =>
    simp [head_significantRun run]
    omega

/-- Without separators the first run goes on with what comes after them. -/
theorem takeWhile_ungrouped (ts : List Token) :
    (Core.ungrouped ts).takeWhile Token.isSignificant = ts.takeWhile Token.isSignificant ++
      (Core.ungrouped (ts.dropWhile Token.isSignificant)).takeWhile Token.isSignificant := by
  induction ts with
  | nil => rfl
  | cons t ts ih =>
    by_cases significant : t.isSignificant
    · have kept := isGrouping_of_isSignificant significant
      simpa [Core.ungrouped, significant, kept] using ih
    · simp [significant]

/-- Commas between significant digits end the run of the lower bound. -/
theorem significantBounds_ungrouped (ts : List Token) :
    (significantBounds (Core.ungrouped ts)).2 = (significantBounds ts).2 ∧
      ((significantBounds (Core.ungrouped ts)).1 = (significantBounds ts).1 ↔
        laterRun ts = []) := by
  rw [significantBounds_eq, significantBounds_eq, significantRun_ungrouped, digitCount_ungrouped,
    laterRun]
  refine ⟨rfl, ?_⟩
  cases run : significantRun ts with
  | nil => simp [Core.ungrouped]
  | cons t rest =>
    have first := head_significantRun run
    have taken := takeWhile_ungrouped (t :: rest)
    simp [taken, first]

end Layout

/-! ## What commas decide besides the groups -/

/-- A run of separators, and nothing else. -/
def OnlyCommas (cs : List Char) : Prop := cs ≠ [] ∧ withoutCommas cs = []

/-- A comma ends the first run of `@`, and after it the run goes on. -/
def SplitRun (cs : List Char) : Prop :=
  (withoutCommas ((cs.dropWhile (· != '@')).dropWhile (· == '@'))).head? = some '@'

theorem forall₂_dropWhile (h : List.Forall₂ RunChar cs ts) (eq : ∀ x t, RunChar x t → f t = q x) :
    List.Forall₂ RunChar (cs.dropWhile q) (ts.dropWhile f) := by
  induction h with
  | nil => exact .nil
  | @cons x t cs ts head rest ih =>
    rw [List.dropWhile_cons, List.dropWhile_cons, eq x t head]
    split_ifs
    · exact ih
    · exact .cons head rest

theorem onlyCommas_iff (h : List.Forall₂ RunChar cs ts) :
    OnlyCommas cs ↔ ts ≠ [] ∧ Core.ungrouped ts = [] := by
  have h' := (forall₂_withoutCommas h).length_eq
  rw [OnlyCommas, ← List.length_pos_iff, ← List.length_pos_iff, ← List.length_eq_zero_iff,
    ← List.length_eq_zero_iff, h.length_eq, h']

theorem splitRun_iff (h : List.Forall₂ RunChar cs ts) :
    SplitRun cs ↔ Layout.laterRun ts ≠ [] := by
  have significant : ∀ x t, RunChar x t → t.isSignificant = (x == '@') :=
    fun _ _ head => head.isSignificant_eq
  have run : List.Forall₂ RunChar (cs.dropWhile (· != '@')) (Layout.significantRun ts) :=
    forall₂_dropWhile h fun x t head => congrArg (!·) (significant x t head)
  have rest := forall₂_withoutCommas (forall₂_dropWhile run significant)
  rw [SplitRun, Layout.laterRun]
  generalize withoutCommas _ = ds, Core.ungrouped _ = us at rest ⊢
  cases rest with
  | nil => simp
  | cons head _ => simp [significant _ _ head]

/-- The layouts differ in the text of the pattern, in the groups and in two lower bounds. -/
def Layout.SameButCommas (l l' : Layout) : Prop :=
  l' = { l with
    source := l'.source, grouping := l'.grouping, primaryGroup := l'.primaryGroup,
    secondaryGroup := l'.secondaryGroup, integerMin := l'.integerMin,
    significantMin := l'.significantMin }

theorem Core.Regular.ungrouped_integer (h : core.Regular)
    (exponential : core.parts.exponent?.isSome) :
    Core.ungrouped core.parts.integer = core.parts.integer :=
  List.filter_eq_self.mpr fun t ht => by simp [h.ungrouped exponential t ht]

section Sections

variable {t : NumberSection}

/-- A section with the core of another one, but for its separators. -/
structure NumberSection.Ungroups (t s : NumberSection) : Prop where
  before : t.before = s.before
  core : t.core.Ungroups s.core
  after : t.after = s.after

namespace Layout

theorem sameButCommas_of_ungroups (h : t.Ungroups s) (regular : s.core.Regular) :
    (ofSections source s negative).SameButCommas (ofSections source' t negative) := by
  have affixes : affixesOf t = affixesOf s := by rw [affixesOf, affixesOf, h.before, h.after]
  have negative' : negativeAffixes t negative = negativeAffixes s negative := by
    cases negative <;> simp [negativeAffixes, h.before, h.after]
  have scale : scaleOf (t :: negative.toList) = scaleOf (s :: negative.toList) := by
    simp [scaleOf, NumberSection.hasMark, h.before, h.after]
  have bounds := (significantBounds_ungrouped s.core.parts.integer).1
  simp only [SameButCommas, ofSections, NumberSection.isLiteral, h.core.isEmpty, h.core.integer,
    h.core.fraction, h.core.exponent?, h.core.hasSignificance, affixes, negative', scale,
    digitCount_ungrouped, requiredCount_ungrouped]
  by_cases exponential : s.core.parts.exponent?.isSome
  · rw [regular.ungrouped_integer exponential]
  · cases s.core.parts.hasSignificance <;> simp [exponential, bounds]

theorem integerMin_ungroups_iff (h : t.Ungroups s) (regular : s.core.Regular) :
    (ofSections source' t negative).integerMin = (ofSections source s negative).integerMin ↔
      ¬ (s.core.parts.integer ≠ [] ∧ Core.ungrouped s.core.parts.integer = []) := by
  simp only [ofSections, h.core.integer, h.core.exponent?, h.core.hasSignificance,
    requiredCount_ungrouped]
  by_cases exponential : s.core.parts.exponent?.isSome
  · rw [regular.ungrouped_integer exponential]
    simp
  · have plain : (s.core.parts.exponent?.isSome && s.core.parts.hasSignificance) = false := by
      simp [exponential]
    rw [plain, if_neg Bool.false_ne_true, if_neg Bool.false_ne_true]
    by_cases empty : s.core.parts.integer = []
    · simp [empty, Core.ungrouped]
    · cases Core.ungrouped s.core.parts.integer <;> simp [empty]
      omega

theorem significantMin_ungroups_iff (h : t.Ungroups s) :
    (ofSections source' t negative).significantMin =
        (ofSections source s negative).significantMin ↔
      laterRun s.core.parts.integer = [] := by
  simp only [ofSections, h.core.integer, h.core.hasSignificance]
  cases significance : s.core.parts.hasSignificance with
  | true => simpa using (significantBounds_ungrouped s.core.parts.integer).2
  | false =>
    have run : significantRun s.core.parts.integer = [] := by
      rw [Core.Parts.hasSignificance, List.any_append, Bool.or_eq_false_iff] at significance
      simpa [significantRun] using significance.1
    simp [laterRun, run, Core.ungrouped]

end Layout

end Sections

/-! ## Patterns without the commas of a core -/

/-- A digit placeholder, also one among the digits of an exponent. -/
def HasPlaceholder (c : List Char) : Prop := ∃ x ∈ c, x.isDigit ∨ x = '#' ∨ x = '@'

theorem CoreText.withoutCommas_mantissaText_ne_nil (h : CoreText c core)
    (keeps : CoreRule.firstBroken? core = none) (placeholder : HasPlaceholder c) :
    withoutCommas (mantissaText c) ≠ [] := by
  obtain ⟨x, mem, digit⟩ := placeholder
  cases h with
  | @mantissa cs ts h =>
    have whole : mantissaText c = c := by
      simpa using @MantissaText.mantissaText_append c [] core h (by simp)
    have ne : x ≠ ',' := by
      rintro rfl
      exact absurd digit (by decide)
    rw [whole]
    exact List.ne_nil_of_mem ((mem_withoutCommas_iff ne).mpr mem)
  | @exponent cs es ts e h ne h' =>
    -- There is no comma beside an exponent.
    have text : CoreText (cs ++ es) (ts ++ [.exponent e]) := .exponent h ne h'
    have apart := (CoreRule.firstBroken?_eq_none_iff text).mp keeps .exponentWithoutGrouping
    have bare : ',' ∉ cs := fun comma => apart
      ⟨List.mem_append_right _ (by cases h' <;> simp), List.mem_append_left _ comma⟩
    rwa [h.mantissaText_append h'.head?, withoutCommas_eq_self bare]

/-- A section that keeps the rules keeps them without its commas. -/
theorem SectionParts.ofText_ungrouped (parts : SectionParts first a c b core)
    (text : SectionText first) (keeps : CoreRule.firstBroken? core = none)
    (filled : withoutCommas (mantissaText c) ≠ []) :
    CoreRule.firstBroken? (NumberSection.ofText (a ++ (withoutCommas c ++ b))).core = none ∧
      (NumberSection.ofText (a ++ (withoutCommas c ++ b))).Ungroups (.ofText first) := by
  have parts' := parts.ungrouped filled
  rw [parts.ofText_eq text, parts'.ofText_eq (parts.sectionText_ungrouped text filled)]
  refine ⟨(CoreRule.firstBroken?_eq_none_iff parts'.text).mpr fun rule broken => ?_,
    rfl, parts.text.ungroups filled, rfl⟩
  exact (CoreRule.firstBroken?_eq_none_iff parts.text).mp keeps rule broken.of_ungrouped

theorem checked_ungrouped {q : String} {us : List Char}
    (keeps : ∀ s ∈ (Pattern.ofTexts p first others).checkedSections,
      CoreRule.firstBroken? s.core = none)
    (keeps' : CoreRule.firstBroken? (NumberSection.ofText us).core = none) :
    ∀ s ∈ (Pattern.ofTexts q us others).checkedSections, CoreRule.firstBroken? s.core = none := by
  intro s hs
  rcases List.mem_cons.mp hs with rfl | hs
  · exact keeps'
  · exact keeps s (List.mem_cons_of_mem _ hs)

theorem Sections.replace_first {first' : List Char} (s : Sections p.toList first others [])
    (text : SectionText first') :
    Sections (String.ofList (first' ++ joined others [])).toList first' others [] where
  texts u hu := by
    rcases List.mem_cons.mp hu with rfl | hu
    · exact text
    · exact s.texts u (List.mem_cons_of_mem _ hu)
  last _ _ := sectionEnd_nil
  stop := .inl rfl
  whole := String.toList_ofList

/-- Without the commas of its first core a pattern is compiled to the same format but for the groups
and for what the commas decide besides. -/
theorem compile_ungrouped (h : NumberFormat.compile p = .ok F)
    (cut : sectionTexts p.toList = first :: others) (d : Decomposition first a c b)
    (placeholder : HasPlaceholder c) :
    ∃ F', NumberFormat.compile
        (String.ofList (a ++ (withoutCommas c ++ b) ++ joined others [])) = .ok F' ∧
      F.layout.SameButCommas F'.layout ∧ F'.zero = F.zero ∧ F'.text = F.text ∧
      (F'.layout.integerMin = F.layout.integerMin ↔ ¬ OnlyCommas (integerText c)) ∧
      (F'.layout.significantMin = F.layout.significantMin ↔ ¬ SplitRun (integerText c)) := by
  have ne : p ≠ "" := by
    rintro rfl
    obtain ⟨rfl, -⟩ := List.cons.inj cut
    have whole := d.whole
    obtain ⟨x, mem, -⟩ := placeholder
    simp_all [cutSections]
  obtain ⟨P, parsed, keeps, rfl⟩ := compile_eq_ok_iff.mp h
  obtain ⟨u, us, sections, few, rfl⟩ := exists_sections_of_parse ne parsed
  rw [sections.sectionTexts_eq] at cut
  obtain ⟨rfl, rfl⟩ := List.cons.inj cut
  obtain ⟨a', c', b', core, parts⟩ := exists_sectionParts u
  obtain ⟨rfl, rfl, rfl⟩ := parts.decomposition.unique d
  have text : SectionText u := sections.texts u List.mem_cons_self
  have read := parts.ofText_eq text
  have keepsCore : CoreRule.firstBroken? core = none := by
    have first := keeps (.ofText u) List.mem_cons_self
    rwa [read] at first
  have filled := parts.text.withoutCommas_mantissaText_ne_nil keepsCore placeholder
  have text' := parts.sectionText_ungrouped text filled
  obtain ⟨keepsCore', ungroups⟩ := parts.ofText_ungrouped text keepsCore filled
  have regular : (NumberSection.ofText u).core.Regular := by
    rw [read]
    exact parts.text.regular keepsCore
  have run : List.Forall₂ RunChar (integerText c) (NumberSection.ofText u).core.parts.integer := by
    rw [read]
    exact parts.text.run_integer
  have ne' : a ++ (withoutCommas c ++ b) ++ joined us [] ≠ [] := by
    simp [withoutCommas_ne_nil filled]
  have compiled := compile_eq_ok_of_sections (by simpa using ne') (sections.replace_first text') few
    (checked_ungrouped keeps keepsCore')
  refine ⟨_, compiled, Layout.sameButCommas_of_ungroups ungroups regular, rfl, rfl, ?_, ?_⟩
  · rw [onlyCommas_iff run]
    exact Layout.integerMin_ungroups_iff ungroups regular
  · rw [splitRun_iff run, not_not]
    exact Layout.significantMin_ungroups_iff ungroups

theorem compile_ungrouped_of_two_groups :
    let F := NumberFormat.ofSections (.ofTexts "a#,##,#0.0,#%;(0)" "a#,##,#0.0,#%".toList
      ["(0)".toList])
    NumberFormat.compile "a#,##,#0.0,#%;(0)" = .ok F ∧
      sectionTexts "a#,##,#0.0,#%;(0)".toList = ["a#,##,#0.0,#%".toList, "(0)".toList] ∧
      Decomposition "a#,##,#0.0,#%".toList ['a'] "#,##,#0.0,#".toList ['%'] ∧
      HasPlaceholder "#,##,#0.0,#".toList ∧
      ∃ F', NumberFormat.compile "a####0.0#%;(0)" = .ok F' ∧ F.layout.SameButCommas F'.layout ∧
        F'.layout.integerMin = F.layout.integerMin ∧
        F'.layout.significantMin = F.layout.significantMin := by
  intro F
  have compiled : NumberFormat.compile "a#,##,#0.0,#%;(0)" = .ok F :=
    compile_eq_ok (by decide) (by decide) (by decide) (by decide)
  have cut : sectionTexts "a#,##,#0.0,#%;(0)".toList =
      ["a#,##,#0.0,#%".toList, "(0)".toList] := by decide
  have decomposition : Decomposition "a#,##,#0.0,#%".toList ['a'] "#,##,#0.0,#".toList ['%'] :=
    decomposition_of_read rfl (by decide) (by decide) (by decide) (by decide)
  have placeholder : HasPlaceholder "#,##,#0.0,#".toList := ⟨'#', by decide, by decide⟩
  obtain ⟨F', compiled', same, -, -, integer, significant⟩ :=
    compile_ungrouped compiled cut decomposition placeholder
  refine ⟨compiled, cut, decomposition, placeholder, F', compiled', same, ?_, ?_⟩
  · exact integer.mpr (by unfold OnlyCommas; decide)
  · exact significant.mpr (by unfold SplitRun; decide)

/-- An integer run of a single comma has one digit at least, and none without it; of three
significant digits a comma leaves one. -/
theorem bounds_of_commas :
    (∃ F F', NumberFormat.compile ",.0" = .ok F ∧ NumberFormat.compile ".0" = .ok F' ∧
      Decomposition ",.0".toList [] ",.0".toList [] ∧ HasPlaceholder ",.0".toList ∧
      withoutCommas ",.0".toList = ".0".toList ∧
      F.layout.integerMin = 1 ∧ F'.layout.integerMin = 0) ∧
    ∃ F F', NumberFormat.compile "@,@@" = .ok F ∧ NumberFormat.compile "@@@" = .ok F' ∧
      Decomposition "@,@@".toList [] "@,@@".toList [] ∧ HasPlaceholder "@,@@".toList ∧
      withoutCommas "@,@@".toList = "@@@".toList ∧
      F.layout.significantMin = 1 ∧ F'.layout.significantMin = 3 := by
  have point : Decomposition ",.0".toList [] ",.0".toList [] :=
    decomposition_of_read rfl (by decide) (by decide) (by decide) (by decide)
  have digits : Decomposition "@,@@".toList [] "@,@@".toList [] :=
    decomposition_of_read rfl (by decide) (by decide) (by decide) (by decide)
  constructor
  · refine ⟨_, _, compile_eq_ok ?_ ?_ ?_ ?_, compile_eq_ok ?_ ?_ ?_ ?_, point,
      ⟨'0', ?_, ?_⟩, ?_, ?_, ?_⟩ <;> decide
  · refine ⟨_, _, compile_eq_ok ?_ ?_ ?_ ?_, compile_eq_ok ?_ ?_ ?_ ?_, digits,
      ⟨'@', ?_, ?_⟩, ?_, ?_, ?_⟩ <;> decide

end DecimalPattern
