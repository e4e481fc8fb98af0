import DecimalPattern.Pattern.Basic
import DecimalPattern.Proofs.Pattern.Section

/-! # Splitting a pattern into sections

The sections of a pattern are the texts between its unquoted semicolons, each read by itself. A
quote that is never closed ends the last section before it.
-/

namespace DecimalPattern

open Glyph

variable {cs u a c b first tail rest before after : List Char} {others : List (List Char)} {n : ℕ}
  {core : Core} {p : String}

/-- The section for numbers that a text is when nothing follows it. -/
def NumberSection.ofText (u : List Char) : NumberSection := (NumberSection.read u).1

def Template.ofText (u : List Char) : Template := (Template.read u).1

abbrev Placeholder.ofChar? (c : Char) : Option Placeholder := if c = '@' then some .text else none

theorem SectionParts.ofText_eq (parts : SectionParts u a c b core) (h : SectionText u) :
    NumberSection.ofText u =
      ⟨String.ofList u, Segment.ofGlyphs (resolve ScaleMark.ofChar? false a), core,
        Segment.ofGlyphs (resolve ScaleMark.ofChar? false b)⟩ := by
  have alone := parts.read_eq h sectionEnd_nil
  rw [List.append_nil] at alone
  rw [NumberSection.ofText, alone]

theorem NumberSection.read_of_end (h : SectionText u) (e : SectionEnd u rest) :
    NumberSection.read (u ++ rest) = (NumberSection.ofText u, rest) := by
  obtain ⟨a, c, b, core, parts⟩ := exists_sectionParts u
  rw [parts.ofText_eq h, parts.read_eq h e]

theorem NumberSection.source_ofText (h : SectionText u) :
    (NumberSection.ofText u).source = String.ofList u := by
  obtain ⟨a, c, b, core, parts⟩ := exists_sectionParts u
  rw [parts.ofText_eq h]

theorem Template.read_eq (h : SectionText u) (e : SectionEnd u rest) :
    Template.read (u ++ rest) =
      (Segment.ofGlyphs (resolve Placeholder.ofChar? false u), rest) :=
  Segment.read_append h.closed (beq_semicolon_of_not_mem h.bare) e.apart e.stop

theorem Template.ofText_eq (h : SectionText u) :
    Template.ofText u = Segment.ofGlyphs (resolve Placeholder.ofChar? false u) := by
  have alone := Template.read_eq h sectionEnd_nil
  rw [List.append_nil] at alone
  rw [Template.ofText, alone]

/-- A template is read without looking at what follows it. -/
theorem Template.read_of_end (h : SectionText u) (e : SectionEnd u rest) :
    Template.read (u ++ rest) = (Template.ofText u, rest) := by
  rw [Template.ofText_eq h, Template.read_eq h e]

/-! ## Further sections -/

/-- Sections with a semicolon before each, and what is left after the last. -/
def joined (others : List (List Char)) (tail : List Char) : List Char :=
  others.flatMap (';' :: ·) ++ tail

@[simp] theorem joined_nil : joined [] tail = tail := rfl

@[simp] theorem joined_cons : joined (u :: others) tail = ';' :: (u ++ joined others tail) := by
  simp [joined]

/-- The texts of further sections, of which the last ends where the reading of the pattern ends. -/
structure Others (others : List (List Char)) (tail : List Char) : Prop where
  texts : ∀ u ∈ others, SectionText u
  last : ∀ u ∈ others.getLast?, SectionEnd u tail
  stop : tail = [] ∨ Dangling tail

theorem Others.of_cons (h : Others (u :: others) tail) : Others others tail where
  texts v hv := h.texts v (List.mem_cons_of_mem u hv)
  last v hv := h.last v (by rw [List.getLast?_cons, hv]; rfl)
  stop := h.stop

theorem Others.of_tail (h : Others others tail) : Others others.tail tail := by
  cases others with
  | nil => exact h
  | cons u others => exact h.of_cons

theorem Others.sectionEnd (h : Others (u :: others) tail) :
    SectionEnd u (joined others tail) := by
  cases others with
  | nil => exact h.last u rfl
  | cons v others =>
    rw [joined_cons]
    exact sectionEnd_semicolon

theorem Others.tail_ne (h : Others others tail) (rest : List Char) : tail ≠ ';' :: rest := by
  rcases h.stop with rfl | ⟨inner, rfl, -⟩ <;> simp

theorem readNext?_joined (h : Others others tail) :
    NumberSection.readNext? (joined others tail) =
      (others.head?.map NumberSection.ofText, joined others.tail tail) := by
  cases others with
  | nil => exact NumberSection.readNext?.eq_2 _ h.tail_ne
  | cons u others =>
    have text := h.texts u List.mem_cons_self
    simp [NumberSection.readNext?, NumberSection.read_of_end text h.sectionEnd]

theorem readAll_joined (h : Others others tail) :
    Template.readAll (joined others tail) = (others.map Template.ofText, tail) := by
  induction others with
  | nil => exact Template.readAll.eq_2 _ h.tail_ne
  | cons u others ih =>
    have text := h.texts u List.mem_cons_self
    rw [joined_cons, Template.readAll, Template.read_of_end text h.sectionEnd, ih h.of_cons]
    rfl

/-! ## Whole patterns -/

/-- A pattern as its sections and what is left of it. -/
structure Sections (cs first : List Char) (others : List (List Char)) (tail : List Char) : Prop
    extends Others (first :: others) tail where
  whole : cs = first ++ joined others tail

/-- The pattern that sections make. -/
def Pattern.ofTexts (p : String) (first : List Char) (others : List (List Char)) : Pattern where
  source := p
  positive := NumberSection.ofText first
  negative := others[0]?.map NumberSection.ofText
  zero := others[1]?.map NumberSection.ofText
  text := others[2]?.map Template.ofText

theorem parse_eq (ne : p ≠ "") (s : Sections p.toList first others tail) :
    Pattern.parse p =
      if tail ≠ [] then
        .error (.unterminatedQuote p (byteWidth (first ++ joined others [])))
      else if 4 < 1 + others.length then .error (.tooManySections p (1 + others.length))
      else .ok (Pattern.ofTexts p first others) := by
  have positive :
      NumberSection.read p.toList = (NumberSection.ofText first, joined others tail) := by
    rw [s.whole, NumberSection.read_of_end (s.texts first List.mem_cons_self) s.sectionEnd]
  have negative := readNext?_joined s.of_cons
  have zero := readNext?_joined s.of_cons.of_tail
  have templates := readAll_joined s.of_cons.of_tail.of_tail
  have nonempty : p.isEmpty = false := by simpa using ne
  have taken : consumed p.toList tail = first ++ joined others [] := by
    have shape : p.toList = (first ++ joined others []) ++ tail := by simp [s.whole, joined]
    rw [shape, consumed_append]
  have count : 1 + (others.head?.map NumberSection.ofText).toList.length +
      (others.tail.head?.map NumberSection.ofText).toList.length +
      (others.tail.tail.map Template.ofText).length = 1 + others.length := by
    rcases others with _ | ⟨u, _ | ⟨v, others⟩⟩
    · rfl
    · rfl
    · simp only [List.head?_cons, List.tail_cons, Option.map_some, Option.toList_some,
        List.length_cons, List.length_nil, List.length_map]
      omega
  simp only [Pattern.parse, nonempty, Bool.false_eq_true, if_false, positive, negative, zero,
    templates, taken, count]
  cases tail with
  | cons c tail => simp
  | nil => simp [Pattern.ofTexts, List.head?_eq_getElem?]

/-! ## Every text splits -/

theorem exists_sections (even : Even (cs.count '\'')) :
    ∃ first others, Sections cs first others [] := by
  induction k : cs.length using Nat.strong_induction_on generalizing cs with
  | _ k ih =>
    obtain ⟨u, v, rfl, bare, next⟩ := exists_unquoted_cut (· == ';') false cs
    have bare' : ';' ∉ unquoted u := fun h => absurd (bare ';' h) (by decide)
    cases v with
    | nil =>
      rw [List.append_nil] at even
      refine ⟨u, [], ⟨?_, ?_, .inl rfl⟩, rfl⟩
      · simpa using ⟨even, bare'⟩
      · simpa using sectionEnd_nil
    | cons c v =>
      obtain ⟨closed, semicolon⟩ := next c rfl
      obtain rfl : c = ';' := by simpa using semicolon
      have evenFirst : Even (u.count '\'') := quotedAfter_eq_self_iff.mp closed
      have evenRest : Even (v.count '\'') := by
        rw [List.count_append, List.count_cons_of_ne (by decide), Nat.even_add] at even
        exact even.mp evenFirst
      obtain ⟨first, others, s⟩ := ih v.length (by simp at k; omega) evenRest rfl
      refine ⟨u, first :: others, ⟨?_, ?_, .inl rfl⟩, by rw [s.whole, joined_cons]⟩
      · intro w hw
        rcases List.mem_cons.mp hw with rfl | hw
        · exact ⟨evenFirst, bare'⟩
        · exact s.texts w hw
      · exact fun w _ => sectionEnd_nil

/-- Before the last quote of the last run of odd length, the quotes are closed. -/
theorem exists_sections_of_lastOddRun (odd : Odd (cs.count '\''))
    (r : LastOddRun cs before n after) :
    ∃ first others, Sections cs first others ('\'' :: after) ∧
      first ++ joined others [] = before ++ List.replicate (n - 1) '\'' := by
  obtain ⟨k, rfl⟩ := r.odd
  rw [Nat.add_sub_cancel]
  have even : Even ((before ++ List.replicate (2 * k) '\'').count '\'') := by
    rw [List.count_append, List.count_replicate_self]
    exact (r.even_count_before odd).add (even_two_mul k)
  obtain ⟨first, others, s⟩ := exists_sections even
  have dangling : Dangling ('\'' :: after) := ⟨after, rfl, r.after_ne, r.evenRuns_after⟩
  have evenLast : ∀ u ∈ (first :: others).getLast?, evenEnd u := by
    intro u hu
    have whole : evenEnd (first ++ joined others []) := by
      rw [← s.whole]
      exact evenEnd_append_replicate r.before_ne k
    rcases List.eq_nil_or_concat' others with rfl | ⟨others, v, rfl⟩
    · obtain rfl : first = u := by simpa using hu
      simpa using whole
    · rw [← List.cons_append, List.getLast?_concat] at hu
      obtain rfl := Option.some.inj hu
      have shape :
          first ++ joined (others ++ [v]) [] = (first ++ joined others []) ++ ';' :: v := by
        simp [joined]
      rwa [shape, evenEnd_append_cons _ (by decide)] at whole
  refine ⟨first, others, ⟨⟨s.texts, fun u hu => ?_, .inr dangling⟩, ?_⟩, s.whole.symm⟩
  · exact sectionEnd_dangling (evenLast u hu) dangling
  · have shape : cs = (before ++ List.replicate (2 * k) '\'') ++ '\'' :: after := by
      rw [r.eq, List.replicate_succ']
      simp
    rw [shape, s.whole]
    simp [joined]

theorem Sections.of_cons (s : Sections cs first (u :: others) tail) :
    Sections (u ++ joined others tail) u others tail :=
  ⟨s.toOthers.of_cons, rfl⟩

/-- There is one section more than there are unquoted semicolons. -/
theorem Sections.count_semicolon (s : Sections cs first others []) :
    (unquoted cs).count ';' = others.length := by
  induction others generalizing cs first with
  | nil =>
    have text := s.texts first List.mem_cons_self
    rw [s.whole, joined_nil, List.append_nil, List.count_eq_zero.mpr text.bare, List.length_nil]
  | cons u others ih =>
    have text := s.texts first List.mem_cons_self
    have rest := ih s.of_cons
    rw [s.whole, unquoted_append text.closed, List.count_append, List.count_eq_zero.mpr text.bare,
      joined_cons, Nat.zero_add]
    simpa [unquotedFrom] using rest

/-- A text cut at its unquoted semicolons: the first piece and the others. -/
def cutSections : Bool → List Char → List Char × List (List Char)
  | _, [] => ([], [])
  | quoted, c :: cs =>
    let pieces := cutSections (quoted ^^ c == '\'') cs
    if !quoted && c == ';' then ([], pieces.1 :: pieces.2) else (c :: pieces.1, pieces.2)

/-- The pieces between the unquoted semicolons. -/
def sectionTexts (cs : List Char) : List (List Char) :=
  let pieces := cutSections false cs
  pieces.1 :: pieces.2

theorem cutSections_append {quoted : Bool} (bare : ';' ∉ unquotedFrom quoted u) :
    cutSections quoted (u ++ rest) =
      (u ++ (cutSections (quotedAfter quoted u) rest).1,
        (cutSections (quotedAfter quoted u) rest).2) := by
  induction u generalizing quoted with
  | nil => rfl
  | cons c u ih =>
    have inner := @ih (quoted ^^ c == '\'') fun h => bare (mem_unquotedFrom_cons h)
    have keep : (!quoted && c == ';') = false := by
      cases quoted with
      | true => rfl
      | false =>
        have ne : c ≠ ';' := by rintro rfl; exact bare (by simp [unquotedFrom])
        simpa using ne
    rw [List.cons_append, cutSections, inner, keep]
    rfl

theorem Sections.sectionTexts_eq (s : Sections cs first others []) :
    sectionTexts cs = first :: others := by
  have cut : cutSections false cs = (first, others) := by
    induction others generalizing cs first with
    | nil =>
      have text := s.texts first List.mem_cons_self
      rw [s.whole, cutSections_append text.bare, text.closed]
      simp [cutSections]
    | cons u others ih =>
      have text := s.texts first List.mem_cons_self
      rw [s.whole, cutSections_append text.bare, text.closed, joined_cons]
      simp [cutSections, ih s.of_cons]
  rw [sectionTexts, cut]

/-- A pattern with closed quotes and no more than four sections is read piece by piece. -/
theorem Pattern.parse_eq_ok (ne : p ≠ "") (even : Even (p.toList.count '\''))
    (few : (cutSections false p.toList).2.length ≤ 3) :
    Pattern.parse p =
      .ok (Pattern.ofTexts p (cutSections false p.toList).1 (cutSections false p.toList).2) := by
  obtain ⟨first, others, s⟩ := exists_sections even
  have cut : cutSections false p.toList = (first, others) := by
    have texts := s.sectionTexts_eq
    simpa [sectionTexts, Prod.ext_iff] using texts
  rw [cut] at few ⊢
  have few : others.length ≤ 3 := few
  rw [parse_eq ne s, if_neg (by simp), if_neg (by omega)]

/-! ## Sections by themselves -/

theorem exists_sections_of_parse {P : Pattern} (ne : p ≠ "") (h : Pattern.parse p = .ok P) :
    ∃ first others, Sections p.toList first others [] ∧ others.length ≤ 3 ∧
      P = Pattern.ofTexts p first others := by
  rcases Nat.even_or_odd (p.toList.count '\'') with even | odd
  · obtain ⟨first, others, s⟩ := exists_sections even
    rw [parse_eq ne s] at h
    simp only [ne_eq, not_true, if_false] at h
    split_ifs at h with many
    refine ⟨first, others, s, by omega, ?_⟩
    exact (Except.ok.inj h).symm
  · have runs : ¬ EvenRuns p.toList := fun even => Nat.not_even_iff_odd.mpr odd even.even_count
    obtain ⟨before, n, after, r⟩ := exists_lastOddRun runs
    obtain ⟨first, others, s, -⟩ := exists_sections_of_lastOddRun odd r
    rw [parse_eq ne s] at h
    simp at h

theorem SectionText.sections (h : SectionText u) : Sections u u [] [] where
  texts := by simpa using h
  last := by simpa using sectionEnd_nil
  stop := .inl rfl
  whole := by simp

/-- A section by itself is the positive one of a pattern. -/
theorem SectionText.parse_eq_ok (h : SectionText u) (ne : u ≠ []) :
    Pattern.parse (String.ofList u) = .ok (Pattern.ofTexts (String.ofList u) u []) := by
  have s : Sections (String.ofList u).toList u [] [] := by simpa using h.sections
  rw [parse_eq (by simpa using ne) s]
  simp

def Pattern.numberSections (P : Pattern) : List NumberSection :=
  P.positive :: (P.negative.toList ++ P.zero.toList)

theorem Pattern.numberSections_ofTexts :
    (Pattern.ofTexts p first others).numberSections =
      ((first :: others).take 3).map NumberSection.ofText := by
  rcases others with _ | ⟨u, _ | ⟨v, others⟩⟩ <;> simp [Pattern.numberSections, Pattern.ofTexts]

theorem parse_empty : Pattern.parse "" = Pattern.parse Pattern.defaultSource := by
  simp [Pattern.parse, Pattern.defaultSource]

theorem mem_numberSections_ofTexts {s : NumberSection}
    (hs : s ∈ (Pattern.ofTexts p first others).numberSections) :
    ∃ u ∈ first :: others, s = NumberSection.ofText u := by
  rw [Pattern.numberSections_ofTexts] at hs
  obtain ⟨u, hu, rfl⟩ := List.mem_map.mp hs
  exact ⟨u, List.mem_of_mem_take hu, rfl⟩

theorem length_le_joined (hu : u ∈ others) : u.length ≤ (joined others tail).length := by
  obtain ⟨before, after, rfl⟩ := List.append_of_mem hu
  simp only [joined, List.flatMap_append, List.flatMap_cons, List.length_append, List.length_cons]
  omega

theorem Sections.length_le (s : Sections cs first others tail) (hu : u ∈ first :: others) :
    u.length ≤ cs.length := by
  rw [s.whole, List.length_append]
  rcases List.mem_cons.mp hu with rfl | hu
  · exact Nat.le_add_right _ _
  · exact Nat.le_trans (length_le_joined hu) (Nat.le_add_left _ _)

/-- A number section of a pattern is read off a part of its text, or of the default pattern's. -/
theorem exists_text_of_mem_of_length {P : Pattern} {s : NumberSection} (h : Pattern.parse p = .ok P)
    (hs : s ∈ P.numberSections) : ∃ u, SectionText u ∧ s = NumberSection.ofText u ∧
      u.length ≤ max p.length Pattern.defaultSource.length := by
  obtain ⟨q, ne, h, length⟩ : ∃ q, q ≠ "" ∧ Pattern.parse q = .ok P ∧
      q.length ≤ max p.length Pattern.defaultSource.length := by
    by_cases ne : p = ""
    · rw [ne, parse_empty] at h
      exact ⟨Pattern.defaultSource, by decide, h, le_max_right _ _⟩
    · exact ⟨p, ne, h, le_max_left _ _⟩
  obtain ⟨first, others, sections, -, rfl⟩ := exists_sections_of_parse ne h
  obtain ⟨u, hu, rfl⟩ := mem_numberSections_ofTexts hs
  have part := sections.length_le hu
  rw [String.length_toList] at part
  exact ⟨u, sections.texts u hu, rfl, Nat.le_trans part length⟩

theorem exists_text_of_mem {P : Pattern} {s : NumberSection} (h : Pattern.parse p = .ok P)
    (hs : s ∈ P.numberSections) : ∃ u, SectionText u ∧ s = NumberSection.ofText u := by
  obtain ⟨u, text, eq, -⟩ := exists_text_of_mem_of_length h hs
  exact ⟨u, text, eq⟩

/-- The sections of a pattern do not depend on one another: each is what it would be if its text
were the whole pattern, and the template depends on the fourth text alone. -/
structure ReadApart (p : String) (P : Pattern) : Prop where
  count : 1 ≤ (sectionTexts p.toList).length ∧ (sectionTexts p.toList).length ≤ 4
  negative_isSome : P.negative.isSome ↔ 2 ≤ (sectionTexts p.toList).length
  zero_isSome : P.zero.isSome ↔ 3 ≤ (sectionTexts p.toList).length
  text_isSome : P.text.isSome ↔ (sectionTexts p.toList).length = 4
  positive_source : some P.positive.source = (sectionTexts p.toList)[0]?.map String.ofList
  negative_source :
    P.negative.map NumberSection.source = (sectionTexts p.toList)[1]?.map String.ofList
  zero_source : P.zero.map NumberSection.source = (sectionTexts p.toList)[2]?.map String.ofList
  alone : ∀ s ∈ P.numberSections, s.source ≠ "" →
    ∃ Q, Pattern.parse s.source = .ok Q ∧ Q.positive = s
  empty : ∀ s ∈ P.numberSections, s.source = "" → s.before = [] ∧ s.core = [] ∧ s.after = []
  text : ∀ p' P', p' ≠ "" → Pattern.parse p' = .ok P' →
    (sectionTexts p'.toList)[3]? = (sectionTexts p.toList)[3]? → P'.text = P.text

theorem parse_readApart {P : Pattern} (ne : p ≠ "") (h : Pattern.parse p = .ok P) :
    ReadApart p P := by
  obtain ⟨first, others, s, few, rfl⟩ := exists_sections_of_parse ne h
  have texts := s.sectionTexts_eq
  have present : ∀ (i : ℕ) {α : Type} (f : List Char → α),
      (others[i]?.map f).isSome ↔ i + 2 ≤ (first :: others).length := by
    intro i α f
    rw [Option.isSome_map, List.length_cons, isSome_getElem?]
    omega
  have source : ∀ u ∈ first :: others, (NumberSection.ofText u).source = String.ofList u :=
    fun u hu => NumberSection.source_ofText (s.texts u hu)
  have sources : ∀ i : ℕ, (others[i]?.map NumberSection.ofText).map NumberSection.source =
      others[i]?.map String.ofList := by
    intro i
    rw [Option.map_map]
    refine Option.map_congr fun u hu => source u (List.mem_cons_of_mem first ?_)
    exact List.mem_of_getElem? hu
  constructor
  case count =>
    rw [texts, List.length_cons]
    omega
  case negative_isSome =>
    rw [texts]
    exact present 0 NumberSection.ofText
  case zero_isSome =>
    rw [texts]
    exact present 1 NumberSection.ofText
  case text_isSome =>
    rw [texts]
    refine (present 2 Template.ofText).trans ?_
    rw [List.length_cons]
    omega
  case positive_source =>
    rw [texts]
    exact congrArg some (source first List.mem_cons_self)
  case negative_source =>
    rw [texts]
    exact sources 0
  case zero_source =>
    rw [texts]
    exact sources 1
  case alone =>
    intro t ht nonempty
    obtain ⟨u, hu, rfl⟩ := mem_numberSections_ofTexts ht
    rw [source u hu] at nonempty ⊢
    exact ⟨_, (s.texts u hu).parse_eq_ok (by simpa using nonempty), rfl⟩
  case empty =>
    intro t ht empty
    obtain ⟨u, hu, rfl⟩ := mem_numberSections_ofTexts ht
    rw [source u hu] at empty
    obtain rfl : u = [] := by simpa using empty
    exact ⟨rfl, rfl, rfl⟩
  case text =>
    intro p' P' ne' h' same
    obtain ⟨first', others', s', -, rfl⟩ := exists_sections_of_parse ne' h'
    rw [texts, s'.sectionTexts_eq] at same
    simp only [List.getElem?_cons_succ] at same
    simp [Pattern.ofTexts, same]

theorem parse_readApart_of_semicolon_in_quotes :
    "''0%;';'#,0E+0;;@'nil'" ≠ "" ∧
      Pattern.parse "''0%;';'#,0E+0;;@'nil'" =
        .ok (Pattern.ofTexts "''0%;';'#,0E+0;;@'nil'" "''0%".toList
          ["';'#,0E+0".toList, [], "@'nil'".toList]) ∧
      ReadApart "''0%;';'#,0E+0;;@'nil'"
        (Pattern.ofTexts "''0%;';'#,0E+0;;@'nil'" "''0%".toList
          ["';'#,0E+0".toList, [], "@'nil'".toList]) := by
  have ne : "''0%;';'#,0E+0;;@'nil'" ≠ "" := by decide
  have parsed := Pattern.parse_eq_ok ne (by decide) (by decide)
  exact ⟨ne, parsed, parse_readApart ne parsed⟩

end DecimalPattern
