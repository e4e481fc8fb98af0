import DecimalPattern.Proofs.Layout.Negative

/-! # Marks that scale

A percent or per mille sign scales where it stands outside of quotes in a section that is used: the
first one, or the second if it has a core, and for zeros the third one alone. Whether it scales or
not, it is shown.
-/

namespace DecimalPattern

open Glyph

variable {μ : Type} {mark? : Char → Option μ} {quoted : Bool} {p : String} {F : NumberFormat}
  {cs u v a b c first : List Char} {others : List (List Char)} {core : Core} {k : ℕ} {x : Char}

/-! ## Characters outside of quotes -/

/-- A character with an even number of quotes before it, and as many unquoted semicolons as there
are sections before its own. -/
def BareIn (cs : List Char) (k : ℕ) (x : Char) : Prop :=
  ∃ before after, cs = before ++ x :: after ∧ Even (before.count '\'') ∧
    (unquoted before).count ';' = k

theorem SectionText.count_semicolon_eq_zero (h : SectionText (u ++ v)) :
    (unquoted u).count ';' = 0 := by
  refine List.count_eq_zero.mpr fun mem => h.bare ?_
  rw [unquoted, unquotedFrom_append]
  exact List.mem_append_left _ mem

theorem bareIn_section (h : SectionText u) : BareIn u k x ↔ k = 0 ∧ x ∈ unquoted u := by
  constructor
  · rintro ⟨before, after, rfl, even, rfl⟩
    exact ⟨h.count_semicolon_eq_zero, mem_unquoted.mpr ⟨before, after, rfl, even⟩⟩
  · rintro ⟨rfl, mem⟩
    obtain ⟨before, after, rfl, even⟩ := mem_unquoted.mp mem
    exact ⟨before, after, rfl, even, h.count_semicolon_eq_zero⟩

/-- A character stands in the first section, or in what follows its semicolon. -/
theorem bareIn_append_semicolon (h : SectionText u) (ne : x ≠ ';') :
    BareIn (u ++ ';' :: v) k x ↔ k = 0 ∧ x ∈ unquoted u ∨ ∃ j, k = j + 1 ∧ BareIn v j x := by
  have closed : quotedAfter false u = false := h.closed
  have before (w : List Char) : unquoted (u ++ ';' :: w) = unquoted u ++ ';' :: unquoted w := by
    rw [unquoted_append closed]
    rfl
  have noneHere : (unquoted u).count ';' = 0 := List.count_eq_zero.mpr h.bare
  constructor
  · rintro ⟨start, rest, eq, even, rfl⟩
    rcases List.append_eq_append_iff.mp eq with ⟨middle, rfl, tail⟩ | ⟨middle, rfl, tail⟩
    · -- After the semicolon.
      cases middle with
      | nil => exact absurd (List.cons.inj tail).1.symm ne
      | cons y middle =>
        obtain ⟨rfl, rfl⟩ := List.cons.inj tail
        rw [List.count_append, List.count_cons_of_ne (by decide), Nat.even_add] at even
        refine .inr ⟨(unquoted middle).count ';', ?_, middle, rest, rfl, even.mp h.even, rfl⟩
        rw [before, List.count_append, noneHere, List.count_cons_self, Nat.zero_add]
    · cases middle with
      | nil => exact absurd (List.cons.inj tail).1 ne
      | cons y middle =>
        obtain ⟨rfl, rfl⟩ := List.cons.inj tail
        exact .inl ⟨h.count_semicolon_eq_zero, mem_unquoted.mpr ⟨start, middle, rfl, even⟩⟩
  · rintro (⟨rfl, mem⟩ | ⟨j, rfl, start, rest, rfl, even, rfl⟩)
    · obtain ⟨start, rest, rfl, even⟩ := mem_unquoted.mp mem
      exact ⟨start, rest ++ ';' :: v, by simp, even, h.count_semicolon_eq_zero⟩
    · refine ⟨u ++ ';' :: start, rest, by simp, ?_, ?_⟩
      · rw [List.count_append, List.count_cons_of_ne (by decide)]
        exact h.even.add even
      · rw [before, List.count_append, noneHere, List.count_cons_self, Nat.zero_add]

theorem Sections.bareIn_iff (s : Sections cs first others []) (ne : x ≠ ';') :
    BareIn cs k x ↔ ∃ u, (first :: others)[k]? = some u ∧ x ∈ unquoted u := by
  induction others generalizing cs first k with
  | nil =>
    have text := s.texts first List.mem_cons_self
    rw [s.whole, joined_nil, List.append_nil, bareIn_section text]
    cases k <;> simp
  | cons u others ih =>
    have text := s.texts first List.mem_cons_self
    rw [s.whole, joined_cons, bareIn_append_semicolon text ne]
    cases k with
    | zero => simp
    | succ k => simpa using ih s.of_cons

/-! ## Marks -/

def ScaleMark.char : ScaleMark → Char
  | percent => '%'
  | permille => '‰'

theorem ScaleMark.ofChar?_eq_some_iff {m : ScaleMark} : ofChar? x = some m ↔ x = m.char := by
  unfold ofChar?
  split_ifs with percent permille <;> cases m <;> simp_all [char]

theorem Glyph.mark_mem_resolve_iff {m : μ} (quote : mark? '\'' = none) :
    .mark m ∈ resolve mark? quoted cs ↔ ∃ x ∈ unquotedFrom quoted cs, mark? x = some m := by
  fun_induction resolve mark? quoted cs with
  | case1 => simp
  | case2 quoted cs ih => cases quoted <;> simp_all [unquotedFrom]
  | case3 quoted cs single ih => cases quoted <;> simp_all [unquotedFrom]
  | case4 quoted c cs _ hc ih =>
    have apart : (c == '\'') = false := beq_false_of_ne hc
    cases quoted with
    | true => simpa [unquotedFrom, apart] using ih
    | false =>
      cases found : mark? c with
      | none => simpa [unquotedFrom, apart, ofBare, found] using ih
      | some m' => simp [unquotedFrom, apart, ofBare, found, ih, eq_comm]

theorem count_halveQuotes (ne : x ≠ '\'') (cs : List Char) :
    (halveQuotes cs).count x = cs.count x := by
  fun_induction halveQuotes cs with
  | case1 => rfl
  | case2 cs ih => rw [List.count_cons_of_ne ne.symm, List.count_cons_of_ne ne.symm,
      List.count_cons_of_ne ne.symm, ih]
  | case3 cs single ih => rw [List.count_cons_of_ne ne.symm, ih]
  | case4 c cs _ hc ih => rw [List.count_cons, List.count_cons, ih]

/-! ## Sections -/

/-- A section with a core that is not empty. -/
def HasCore (u : List Char) : Prop := ∃ a c b, Decomposition u a c b ∧ c ≠ []

theorem isLiteral_ofText_iff (h : SectionText u) :
    (NumberSection.ofText u).isLiteral ↔ ¬ HasCore u := by
  obtain ⟨a, c, b, core, parts⟩ := exists_sectionParts u
  rw [parts.ofText_eq h, NumberSection.isLiteral, List.isEmpty_iff]
  constructor
  · rintro rfl ⟨a', c', b', d, ne⟩
    obtain ⟨-, rfl, -⟩ := parts.decomposition.unique d
    exact parts.text.ne_nil ne rfl
  · intro none
    have empty : c = [] := by
      by_contra ne
      exact none ⟨a, c, b, parts.decomposition, ne⟩
    subst empty
    exact (CoreText.mantissa (.integer .nil)).unique parts.text

theorem CoreText.mark_not_mem (h : CoreText c core) (m : ScaleMark) : m.char ∉ c :=
  h.not_mem (by cases m <;> decide)

theorem hasMark_ofText_iff (h : SectionText u) (m : ScaleMark) :
    (NumberSection.ofText u).hasMark m ↔ m.char ∈ unquoted u := by
  obtain ⟨a, c, b, core, parts⟩ := exists_sectionParts u
  have quote : ScaleMark.ofChar? '\'' = none := rfl
  have core : m.char ∉ unquoted c := by
    intro mem
    obtain ⟨before, after, rfl, -⟩ := mem_unquoted.mp mem
    exact parts.text.mark_not_mem m (by simp)
  rw [parts.ofText_eq h, NumberSection.hasMark_iff, parts.unquoted_eq h]
  simp [Segment.mark_mem_ofGlyphs_iff, mark_mem_resolve_iff quote, ScaleMark.ofChar?_eq_some_iff,
    core]

/-- Affixes that have every mark as often as a text. -/
def ShowsMarks (affixes : Affixes) (u : List Char) : Prop :=
  ∀ m : ScaleMark,
    affixes.before.toList.count m.char + affixes.after.toList.count m.char = u.count m.char

theorem showsMarks_affixesOf (h : SectionText u) :
    ShowsMarks (Layout.affixesOf (.ofText u)) u := by
  intro m
  obtain ⟨a, c, b, core, parts⟩ := exists_sectionParts u
  have ne : m.char ≠ '\'' := by cases m <;> decide
  have none : c.count m.char = 0 := List.count_eq_zero.mpr (parts.text.mark_not_mem m)
  have shown {w : List Char} :
      (Affix.render (Segment.ofGlyphs (resolve ScaleMark.ofChar? false w))).toList =
        halveQuotes w :=
    Segment.toList_render_ofGlyphs_resolve fun _ _ => ScaleMark.toList_render
  rw [Layout.affixesOf, parts.ofText_eq h, shown, shown, count_halveQuotes ne,
    count_halveQuotes ne, parts.whole, List.count_append, List.count_append, none, Nat.zero_add]

/-! ## Scales -/

/-- The scale that marked characters give. -/
structure ScaledBy (marked : Char → Prop) (scale : ℕ) : Prop where
  percent : marked '%' → scale = 100
  permille : ¬ marked '%' → marked '‰' → scale = 1000
  unmarked : ¬ marked '%' → ¬ marked '‰' → scale = 1

theorem scaledBy_scaleOf {used : List NumberSection} {marked : Char → Prop}
    (h : ∀ m : ScaleMark, (∃ s ∈ used, s.hasMark m) ↔ marked m.char) :
    ScaledBy marked (Layout.scaleOf used) := by
  have percent : used.any (·.hasMark .percent) = true ↔ marked '%' :=
    List.any_eq_true.trans (h .percent)
  have permille : used.any (·.hasMark .permille) = true ↔ marked '‰' :=
    List.any_eq_true.trans (h .permille)
  rw [Layout.scaleOf]
  constructor
  · intro marked
    rw [if_pos (percent.mpr marked)]
  · intro unmarked marked
    rw [if_neg (unmarked ∘ percent.mp), if_pos (permille.mpr marked)]
  · intro unmarked unmarked'
    rw [if_neg (unmarked ∘ percent.mp), if_neg (unmarked' ∘ permille.mp)]

/-- The characters of a pattern, where the empty one stands for the default. -/
def Pattern.chars (p : String) : List Char :=
  (if p = "" then Pattern.defaultSource else p).toList

/-- A second section that is used. -/
def UsedSecond (cs u : List Char) : Prop := (sectionTexts cs)[1]? = some u ∧ HasCore u

/-- The marks of a pattern and the format that it is compiled to. -/
structure MarksKept (cs : List Char) (F : NumberFormat) : Prop where
  scale : ScaledBy (fun x => BareIn cs 0 x ∨ BareIn cs 1 x ∧ ∃ u, UsedSecond cs u) F.layout.scale
  positive : ∀ u, (sectionTexts cs)[0]? = some u → ShowsMarks F.layout.positive u
  negative : ∀ u, UsedSecond cs u → ShowsMarks F.layout.negative u
  minus : (¬ ∃ u, UsedSecond cs u) → ∀ u, (sectionTexts cs)[0]? = some u →
    ShowsMarks F.layout.negative u
  zero_isSome : F.zero.isSome ↔ 3 ≤ (sectionTexts cs).length
  zero : ∀ z ∈ F.zero, ScaledBy (BareIn cs 2) z.scale ∧ ∃ u, (sectionTexts cs)[2]? = some u ∧
    ShowsMarks z.positive u ∧ ShowsMarks z.negative u

theorem ShowsMarks.minus {affixes : Affixes} (h : ShowsMarks affixes u) :
    ShowsMarks ⟨"-" ++ affixes.before, affixes.after⟩ u := by
  intro m
  have ne : '-' ≠ m.char := by cases m <;> decide
  simpa [ne] using h m

section
variable (s : Sections cs first others [])
include s

theorem Sections.bareIn_mark_iff (m : ScaleMark) :
    BareIn cs k m.char ↔ ∃ u, (first :: others)[k]? = some u ∧ m.char ∈ unquoted u :=
  s.bareIn_iff (by cases m <;> decide)

theorem Sections.sectionText_first : SectionText first := s.texts first List.mem_cons_self

theorem Sections.sectionText_others (hu : u ∈ others) : SectionText u :=
  s.texts u (List.mem_cons_of_mem first hu)

theorem Sections.usedSecond_iff : UsedSecond cs u ↔ others[0]? = some u ∧ HasCore u := by
  rw [UsedSecond, s.sectionTexts_eq]
  rfl

theorem Sections.sectionText_second (used : UsedSecond cs u) : SectionText u :=
  s.sectionText_others (List.mem_of_getElem? (s.usedSecond_iff.mp used).1)

/-- The negative section that is not left out. -/
theorem Sections.mem_negative_iff {n : NumberSection} :
    n ∈ (others[0]?.map NumberSection.ofText).filter (fun n => !n.isLiteral) ↔
      ∃ u, UsedSecond cs u ∧ n = .ofText u := by
  have kept {u : List Char} (eq : others[0]? = some u) :
      (NumberSection.ofText u).isLiteral = false ↔ HasCore u := by
    have text := s.sectionText_others (List.mem_of_getElem? eq)
    rw [← Bool.not_eq_true, isLiteral_ofText_iff text, not_not]
  simp only [Option.mem_def, Option.filter_eq_some_iff, Option.map_eq_some_iff, Bool.not_eq_true',
    s.usedSecond_iff]
  constructor
  · rintro ⟨⟨u, eq, rfl⟩, notLiteral⟩
    exact ⟨u, ⟨eq, (kept eq).mp notLiteral⟩, rfl⟩
  · rintro ⟨u, ⟨eq, core⟩, rfl⟩
    exact ⟨⟨u, eq, rfl⟩, (kept eq).mpr core⟩

/-- The signed sections that are used are the first one and a second one with a core. -/
theorem scaledBy_layout :
    ScaledBy (fun x => BareIn cs 0 x ∨ BareIn cs 1 x ∧ ∃ u, UsedSecond cs u)
      (NumberFormat.ofSections (.ofTexts p first others)).layout.scale := by
  refine scaledBy_scaleOf fun m => (List.exists_mem_cons_iff ..).trans (or_congr ?_ ?_)
  · rw [s.bareIn_mark_iff]
    simpa [Pattern.ofTexts] using hasMark_ofText_iff s.sectionText_first m
  · rw [s.bareIn_mark_iff]
    constructor
    · rintro ⟨n, hn, mark⟩
      obtain ⟨u, used, rfl⟩ := s.mem_negative_iff.mp (Option.mem_toList.mp hn)
      have marked := (hasMark_ofText_iff (s.sectionText_second used) m).mp mark
      exact ⟨⟨u, (s.usedSecond_iff.mp used).1, marked⟩, u, used⟩
    · rintro ⟨⟨u, eq, marked⟩, v, used⟩
      obtain rfl : u = v := Option.some.inj (eq.symm.trans (s.usedSecond_iff.mp used).1)
      have mark := (hasMark_ofText_iff (s.sectionText_second used) m).mpr marked
      exact ⟨_, Option.mem_toList.mpr (s.mem_negative_iff.mpr ⟨u, used, rfl⟩), mark⟩

theorem showsMarks_negative (used : UsedSecond cs u) :
    ShowsMarks (NumberFormat.ofSections (.ofTexts p first others)).layout.negative u := by
  have affixes : (NumberFormat.ofSections (.ofTexts p first others)).layout.negative =
      Layout.affixesOf (.ofText u) :=
    congrArg (Layout.negativeAffixes _) (s.mem_negative_iff.mpr ⟨u, used, rfl⟩)
  rw [affixes]
  exact showsMarks_affixesOf (s.sectionText_second used)

/-- Without a second section that is used, a minus sign stands before the first. -/
theorem showsMarks_minus (unused : ¬ ∃ u, UsedSecond cs u) :
    ShowsMarks (NumberFormat.ofSections (.ofTexts p first others)).layout.negative first := by
  have none : (others[0]?.map NumberSection.ofText).filter (fun n => !n.isLiteral) = none := by
    refine Option.eq_none_iff_forall_not_mem.mpr fun n hn => ?_
    obtain ⟨u, used, -⟩ := s.mem_negative_iff.mp hn
    exact unused ⟨u, used⟩
  have affixes : (NumberFormat.ofSections (.ofTexts p first others)).layout.negative =
      ⟨"-" ++ (NumberSection.ofText first).before.render,
        (NumberSection.ofText first).after.render⟩ := congrArg (Layout.negativeAffixes _) none
  rw [affixes]
  exact (showsMarks_affixesOf s.sectionText_first).minus

theorem marksKept_ofSections : MarksKept cs (.ofSections (.ofTexts p first others)) := by
  have cut := s.sectionTexts_eq
  constructor
  case scale => exact scaledBy_layout s
  case positive =>
    intro u eq
    rw [cut] at eq
    obtain rfl := Option.some.inj eq
    exact showsMarks_affixesOf s.sectionText_first
  case negative => exact fun u used => showsMarks_negative s used
  case minus =>
    intro unused u eq
    rw [cut] at eq
    obtain rfl := Option.some.inj eq
    exact showsMarks_minus s unused
  case zero_isSome =>
    rw [cut, List.length_cons]
    simp [NumberFormat.ofSections, Pattern.ofTexts]
    omega
  case zero =>
    intro z hz
    obtain ⟨n, hn, rfl⟩ := Option.map_eq_some_iff.mp hz
    obtain ⟨u, eq, rfl⟩ := Option.map_eq_some_iff.mp hn
    have text := s.sectionText_others (List.mem_of_getElem? eq)
    have shown := showsMarks_affixesOf text
    refine ⟨scaledBy_scaleOf fun m => ?_, u, by rw [cut]; exact eq, shown, shown.minus⟩
    rw [s.bareIn_mark_iff]
    simpa [eq] using hasMark_ofText_iff text m

end

/-- Unquoted marks in the sections that are used scale, and all their marks are shown. -/
theorem compile_marksKept (h : NumberFormat.compile p = .ok F) : MarksKept (Pattern.chars p) F := by
  obtain ⟨P, parsed, -, rfl⟩ := compile_eq_ok_iff.mp h
  by_cases ne : p = ""
  · rw [ne, parse_empty] at parsed
    obtain ⟨first, others, s, -, rfl⟩ := exists_sections_of_parse (by decide) parsed
    rw [Pattern.chars, if_pos ne]
    exact marksKept_ofSections s
  · obtain ⟨first, others, s, -, rfl⟩ := exists_sections_of_parse ne parsed
    rw [Pattern.chars, if_neg ne]
    exact marksKept_ofSections s

/-- The percent sign of the first section is quoted, the second has a per mille sign and a core, the
third a percent sign and no core. -/
theorem compile_marksKept_of_quoted_percent :
    let F := NumberFormat.ofSections (.ofTexts "0'%';#‰;'x'%;@%" "0'%'".toList
      ["#‰".toList, "'x'%".toList, "@%".toList])
    NumberFormat.compile "0'%';#‰;'x'%;@%" = .ok F ∧ F.layout.scale = 1000 ∧
      (∃ z ∈ F.zero, z.scale = 100) ∧ MarksKept (Pattern.chars "0'%';#‰;'x'%;@%") F := by
  intro F
  have compiled : NumberFormat.compile "0'%';#‰;'x'%;@%" = .ok F :=
    compile_eq_ok (by decide) (by decide) (by decide) (by decide)
  exact ⟨compiled, by decide, ⟨_, rfl, by decide⟩, compile_marksKept compiled⟩

end DecimalPattern
