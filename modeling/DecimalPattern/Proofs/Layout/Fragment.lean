import DecimalPattern.Proofs.Layout.Check

/-! # Fragments in errors

An error for a broken rule shows the part of the core that the rule is about. A run is shown as it
stands in the pattern; a whole core is too, but for the digits of its exponent, of which only the
number is kept: they are shown as zeros.
-/

namespace DecimalPattern

variable {p fragment : String} {P : Pattern} {s : NumberSection} {rule : CoreRule} {core : Core}
  {c cs es first u tail : List Char} {others : List (List Char)} {ts : List Token} {e : Exponent}

/-! ## Texts that are shown -/

/-- The text of a core from its exponent on. -/
def exponentText (c : List Char) : List Char := c.dropWhile (· != 'E')

/-- A character of an exponent as it is shown. -/
def zeroed (d : Char) : Char := if d.isDigit then '0' else d

/-- The text of a core with zeros in its exponent. -/
def zeroedExponent (c : List Char) : List Char := mantissaText c ++ (exponentText c).map zeroed

theorem mantissaText_append_exponentText (c : List Char) :
    mantissaText c ++ exponentText c = c :=
  List.takeWhile_append_dropWhile

theorem zeroed_eq_self_iff {d : Char} : zeroed d = d ↔ (d.isDigit → d = '0') := by
  unfold zeroed
  split
  next digit => simp [digit, eq_comm]
  next other => simp [other]

/-- Nothing is lost where the exponent has no other digits than zeros. -/
theorem zeroedExponent_eq_self_iff :
    zeroedExponent c = c ↔ ∀ d ∈ exponentText c, d.isDigit → d = '0' := by
  conv_lhs => rhs; rw [← mantissaText_append_exponentText c]
  rw [zeroedExponent, List.append_cancel_left_eq]
  simp only [← zeroed_eq_self_iff]
  simpa using @List.map_inj_left _ _ (exponentText c) zeroed id

theorem exponentText_of_not_mem (h : 'E' ∉ c) : exponentText c = [] := by
  apply List.dropWhile_eq_nil_iff.mpr
  rintro x hx
  rw [bne_iff_ne]
  rintro rfl
  exact h hx

theorem zeroedExponent_of_not_mem (h : 'E' ∉ c) : zeroedExponent c = c := by
  simp [zeroedExponent_eq_self_iff, exponentText_of_not_mem h]

theorem flatMap_render_of_run (h : List.Forall₂ RunChar cs ts) : ts.flatMap Token.render = cs := by
  induction h with
  | nil => rfl
  | cons head _ ih =>
    rw [List.flatMap_cons, ih]
    cases head <;> rfl

theorem MantissaText.flatMap_render (h : MantissaText cs ts) : ts.flatMap Token.render = cs := by
  cases h with
  | integer h => exact flatMap_render_of_run h
  | fraction h h' =>
    rw [List.flatMap_append, List.flatMap_cons, flatMap_render_of_run h, flatMap_render_of_run h']
    rfl

theorem ExponentText.render (h : ExponentText es e) :
    (Token.exponent e).render = es.map zeroed := by
  have zeros : ∀ {ds : List Char}, (∀ d ∈ ds, d.isDigit) →
      ds.map zeroed = List.replicate ds.length '0' := by
    intro ds digits
    refine List.eq_replicate_iff.mpr ⟨List.length_map .., ?_⟩
    rintro x hx
    obtain ⟨d, hd, rfl⟩ := List.mem_map.mp hx
    exact if_pos (digits d hd)
  cases h with
  | bare digits => exact congrArg ('E' :: ·) (zeros digits).symm
  | plus digits => exact congrArg ('E' :: '+' :: ·) (zeros digits).symm

theorem CoreText.flatMap_render (h : CoreText c core) :
    core.flatMap Token.render = zeroedExponent c := by
  cases h with
  | mantissa h =>
    have bare : 'E' ∉ c := fun mem => absurd (h.startsCore 'E' mem) (by decide)
    rw [h.flatMap_render, zeroedExponent_of_not_mem bare]
  | @exponent cs es ts e h _ h' =>
    have mantissa : mantissaText (cs ++ es) = cs := h.mantissaText_append h'.head?
    have exponent : exponentText (cs ++ es) = es := by
      have whole := mantissaText_append_exponentText (cs ++ es)
      rw [mantissa] at whole
      exact List.append_cancel_left whole
    rw [List.flatMap_append, h.flatMap_render, List.flatMap_singleton, h'.render, zeroedExponent,
      mantissa, exponent]

/-! ## Parts that rules are about -/

namespace CoreRule

/-- The part of a core's text that a rule is about. -/
def offender (c : List Char) : CoreRule → List Char
  | integerOrder => integerText c
  | fractionOrder => fractionText c
  | _ => c

theorem offender_isInfix (rule : CoreRule) (c : List Char) : rule.offender c <:+: c := by
  have mantissa : mantissaText c <:+: c := (List.takeWhile_prefix _).isInfix
  cases rule with
  | integerOrder => exact (List.takeWhile_prefix _).isInfix.trans mantissa
  | fractionOrder =>
    exact ((List.tail_suffix _).trans (List.dropWhile_suffix _)).isInfix.trans mantissa
  | exponentWithoutGrouping => exact List.infix_refl c
  | significanceWithoutPoint => exact List.infix_refl c
  | significanceWithoutZero => exact List.infix_refl c

theorem toList_render_fragment (h : CoreText c core) (rule : CoreRule) :
    (rule.fragment core).render.toList = zeroedExponent (rule.offender c) := by
  have run : ∀ {cs ts}, List.Forall₂ RunChar cs ts → ts.flatMap Token.render = zeroedExponent cs :=
    fun h => (CoreText.mantissa (.integer h)).flatMap_render
  rw [Core.render, String.toList_ofList]
  cases rule with
  | integerOrder => exact run h.run_integer
  | fractionOrder => exact run h.run_fraction
  | exponentWithoutGrouping => exact h.flatMap_render
  | significanceWithoutPoint => exact h.flatMap_render
  | significanceWithoutZero => exact h.flatMap_render

end CoreRule

/-! ## Errors of patterns -/

theorem Sections.isInfix (s : Sections cs first others tail) (hu : u ∈ first :: others) :
    u <:+: cs := by
  rw [s.whole]
  rcases List.mem_cons.mp hu with rfl | hu
  · exact (List.prefix_append ..).isInfix
  · obtain ⟨before, after, rfl⟩ := List.append_of_mem hu
    refine ⟨first ++ joined before [] ++ [';'], joined after tail, ?_⟩
    simp [joined]

theorem source_isInfix (ne : p ≠ "") (h : Pattern.parse p = .ok P) (hs : s ∈ P.numberSections) :
    s.source.toList <:+: p.toList := by
  obtain ⟨first, others, sections, -, rfl⟩ := exists_sections_of_parse ne h
  obtain ⟨u, hu, rfl⟩ := mem_numberSections_ofTexts hs
  rw [NumberSection.source_ofText (sections.texts u hu), String.toList_ofList]
  exact sections.isInfix hu

theorem compile_empty : ∃ F, NumberFormat.compile "" = .ok F := by
  have parsed := Pattern.parse_eq_ok (p := Pattern.defaultSource) (by decide) (by decide)
    (by decide)
  exact ⟨_, compile_eq_ok_iff.mpr ⟨_, parse_empty.trans parsed, by decide, rfl⟩⟩

theorem exists_parse_of_brokenRule
    (h : NumberFormat.compile p = .error (.brokenRule rule fragment)) :
    ∃ P, Pattern.parse p = .ok P := by
  cases parsed : Pattern.parse p with
  | ok P => exact ⟨P, rfl⟩
  | error e =>
    obtain rfl : e = .brokenRule rule fragment := by
      simpa [NumberFormat.compile, parsed, bind, Except.bind] using h
    dsimp only [Pattern.parse] at parsed
    split_ifs at parsed <;> cases parsed

/-- An error for a rule that a core of a pattern breaks. -/
structure Reports (p : String) (rule : CoreRule) (fragment : String) (c : List Char) : Prop where
  core : ∃ P s a b, Pattern.parse p = .ok P ∧ s ∈ P.checkedSections ∧
    Decomposition s.source.toList a c b
  broken : rule.BrokenIn c
  inside : rule.offender c <:+: p.toList
  fragment_eq : fragment.toList = zeroedExponent (rule.offender c)
  verbatim : fragment.toList = rule.offender c ↔
    ∀ d ∈ exponentText (rule.offender c), d.isDigit → d = '0'

/-- The fragment in the error is the part of the pattern that breaks the rule, but for the digits of
an exponent. -/
theorem compile_reports (h : NumberFormat.compile p = .error (.brokenRule rule fragment)) :
    ∃ c, Reports p rule fragment c := by
  have ne : p ≠ "" := by
    rintro rfl
    obtain ⟨F, compiled⟩ := compile_empty
    simp [compiled] at h
  obtain ⟨P, parsed⟩ := exists_parse_of_brokenRule h
  obtain ⟨before, s, after, eq, -, refused⟩ :=
    forM_check_eq_error_iff.mp ((compile_eq_error_iff parsed).mp h)
  have hs : s ∈ P.checkedSections := by simp [eq]
  obtain ⟨a, c, b, d, text⟩ :=
    exists_decomposition_of_mem parsed (P.mem_numberSections_of_checked hs)
  obtain ⟨found, first, same⟩ := NumberSection.check_eq_error_iff.mp refused
  obtain ⟨rfl, rfl⟩ := PatternError.brokenRule.inj same
  have shown := rule.toList_render_fragment text
  have inside : c <:+: s.source.toList := ⟨a, b, by rw [d.whole, List.append_assoc]⟩
  have source := source_isInfix ne parsed (P.mem_numberSections_of_checked hs)
  refine ⟨c, ⟨P, s, a, b, parsed, hs, d⟩, ?_, ?_, shown, ?_⟩
  · exact ((CoreRule.firstBroken?_eq_some_iff text).mp first).1
  · exact (rule.offender_isInfix c).trans (inside.trans source)
  · rw [shown]
    exact zeroedExponent_eq_self_iff

theorem compile_reports_of_second_section :
    NumberFormat.compile "0;'x'#,##0E+00" =
        .error (.brokenRule .exponentWithoutGrouping "#,##0E+00") ∧
      ∃ c, Reports "0;'x'#,##0E+00" .exponentWithoutGrouping "#,##0E+00" c := by
  have refused : NumberFormat.compile "0;'x'#,##0E+00" =
      .error (.brokenRule .exponentWithoutGrouping "#,##0E+00") := by
    rw [NumberFormat.compile, Pattern.parse_eq_ok (by decide) (by decide) (by decide)]
    decide
  exact ⟨refused, compile_reports refused⟩

/-- The digit of the exponent is shown as a zero, and what is shown is no part of the pattern. -/
theorem fragment_not_inside :
    ∃ P, Pattern.parse "#,0E5" = .ok P ∧ NumberFormat.compile "#,0E5" =
        .error (.brokenRule .exponentWithoutGrouping "#,0E0") ∧
      ¬ "#,0E0".toList <:+: "#,0E5".toList := by
  have parsed := Pattern.parse_eq_ok (p := "#,0E5") (by decide) (by decide) (by decide)
  refine ⟨_, parsed, ?_, by decide⟩
  rw [NumberFormat.compile, parsed]
  decide

end DecimalPattern
