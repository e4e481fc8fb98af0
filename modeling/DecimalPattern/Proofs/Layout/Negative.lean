import DecimalPattern.Proofs.Layout.WellFormed

/-! # Negative sections

Without a section of their own negative numbers take the positive one with a minus before it.
Writing this section out changes nothing, and neither does a section without a core, whatever
marks it has: a pattern with either is compiled as if the section were not there.
-/

namespace DecimalPattern

open Glyph

variable {μ : Type} {shown : μ → String} {source : String} {s n : NumberSection} {p : String}
  {u v a b c : List Char} {core : Core}

/-! ## Affixes -/

namespace Segment

theorem mark_mem_glyphs_iff {m : μ} {segments : List (Segment μ)} :
    .mark m ∈ glyphs segments ↔ .mark m ∈ segments := by
  induction segments with
  | nil => simp [glyphs]
  | cons segment segments ih => cases segment <;> simp [glyphs, ih]

theorem mark_mem_ofGlyphs_iff {m : μ} {gs : List (Glyph μ)} :
    .mark m ∈ ofGlyphs gs ↔ .mark m ∈ gs := by
  rw [← mark_mem_glyphs_iff, glyphs_ofGlyphs]

theorem render_ofGlyphs_literal (c : Char) (gs : List (Glyph μ)) :
    render shown (ofGlyphs (.literal c :: gs)) =
      String.singleton c ++ render shown (ofGlyphs gs) := by
  rw [← String.toList_inj, String.toList_append, toList_render, toList_render, glyphs_ofGlyphs,
    glyphs_ofGlyphs]
  simp [chars]

end Segment

theorem NumberSection.hasMark_iff {m : ScaleMark} :
    s.hasMark m ↔ .mark m ∈ s.before ∨ .mark m ∈ s.after := by
  simp [hasMark]

/-! ## The section with a minus -/

/-- A section that is another one with a minus before it. -/
structure NumberSection.Negates (n s : NumberSection) : Prop where
  core : n.core = s.core
  before : n.before.render = "-" ++ s.before.render
  after : n.after.render = s.after.render
  marks : ∀ m, n.hasMark m = s.hasMark m

theorem SectionText.minus (h : SectionText u) : SectionText ('-' :: u) where
  even := by simpa using h.even
  bare := by simpa [unquotedFrom] using h.bare

theorem SectionParts.minus (parts : SectionParts u a c b core) :
    SectionParts ('-' :: u) ('-' :: a) c b core where
  whole := by rw [parts.whole, List.cons_append]
  bare := List.forall_mem_cons.mpr ⟨by decide, parts.bare⟩
  next := parts.next
  text := parts.text
  read := parts.read

theorem negates_ofText (h : SectionText u) :
    (NumberSection.ofText ('-' :: u)).Negates (NumberSection.ofText u) := by
  obtain ⟨a, c, b, core, parts⟩ := exists_sectionParts u
  have before : resolve ScaleMark.ofChar? false ('-' :: a) =
      .literal '-' :: resolve ScaleMark.ofChar? false a := resolve_cons (by decide)
  rw [parts.ofText_eq h, parts.minus.ofText_eq h.minus, before]
  refine ⟨rfl, Segment.render_ofGlyphs_literal '-' _, rfl, fun m => ?_⟩
  rw [Bool.eq_iff_iff]
  simp [NumberSection.hasMark_iff, Segment.mark_mem_ofGlyphs_iff]

theorem isLiteral_ofText (h : SectionText u) (bare : NoBareCore u) :
    (NumberSection.ofText u).isLiteral := by
  obtain ⟨a, c, b, core, parts⟩ := exists_sectionParts u
  -- The part before the core is the whole text.
  have whole := parts.longest_before.longest u List.prefix_rfl bare
  have length := congrArg List.length parts.whole
  simp only [List.length_append] at length
  obtain rfl : c = [] := List.eq_nil_of_length_eq_zero (by omega)
  have empty : core = [] := (CoreText.mantissa (.integer .nil)).unique parts.text
  rw [parts.ofText_eq h, empty]
  rfl

/-! ## Layouts -/

namespace Layout

def withSource (source : String) (layout : Layout) : Layout := { layout with source }

theorem ofSections_withSource (source source' : String) (positive : NumberSection)
    (negative : Option NumberSection) :
    (ofSections source' positive negative).withSource source =
      ofSections source positive negative := rfl

theorem compile_withSource (source source' : String) (positive : NumberSection)
    (negative : Option NumberSection) :
    compile source' positive negative =
      (compile source positive negative).map (withSource source') := by
  rw [compile_eq, compile_eq]
  cases forM (positive :: (negative.filter fun s => !s.isLiteral).toList) NumberSection.check with
  | error => rfl
  | ok => rfl

theorem compile_of_literal (literal : n.isLiteral) :
    compile source s (some n) = compile source s none := by
  have ignored : (some n).filter (fun s => !s.isLiteral) = none := by simp [literal]
  rw [compile_eq, compile_eq, ignored, Option.filter_none]

theorem ofSections_of_negates (h : n.Negates s) :
    ofSections source s (some n) = ofSections source s none := by
  simp [ofSections, scaleOf, negativeAffixes, affixesOf, h.before, h.after, h.marks]

theorem compile_of_negates (h : n.Negates s) :
    compile source s (some n) = compile source s none := by
  by_cases literal : n.isLiteral
  · exact compile_of_literal literal
  · have kept : (some n).filter (fun s => !s.isLiteral) = some n := by simp [literal]
    -- The same core is checked twice.
    have check : n.check = s.check := by rw [NumberSection.check, NumberSection.check, h.core]
    rw [compile_eq, compile_eq, kept, Option.filter_none, ofSections_of_negates h]
    simp only [Option.toList_some, Option.toList_none, List.forM_cons, List.forM_nil, check]
    cases s.check <;> rfl

end Layout

/-! ## Patterns of one section or two -/

theorem SectionText.sections_pair (h : SectionText u) (h' : SectionText v) :
    Sections (u ++ ';' :: v) u [v] [] where
  texts := by simpa using ⟨h, h'⟩
  last _ _ := sectionEnd_nil
  stop := .inl rfl
  whole := by simp

namespace NumberFormat

/-- The format with another text of its pattern. -/
def withSource (source : String) (F : NumberFormat) : NumberFormat :=
  { F with layout := F.layout.withSource source }

theorem ofPattern_of_short {P : Pattern} (zero : P.zero = none) (text : P.text = none) :
    ofPattern P = (Layout.compile P.source P.positive P.negative).map ofLayout := by
  rw [ofPattern, zero, text]
  cases Layout.compile P.source P.positive P.negative <;> rfl

theorem compile_single (h : SectionText u) (ne : u ≠ []) :
    compile (String.ofList u) =
      (Layout.compile (String.ofList u) (.ofText u) none).map ofLayout := by
  rw [compile, h.parse_eq_ok ne]
  exact ofPattern_of_short rfl rfl

theorem compile_pair (h : SectionText u) (h' : SectionText v) :
    compile (String.ofList (u ++ ';' :: v)) =
      (Layout.compile (String.ofList (u ++ ';' :: v)) (.ofText u) (some (.ofText v))).map
        ofLayout := by
  have sections : Sections (String.ofList (u ++ ';' :: v)).toList u [v] [] := by
    rw [String.toList_ofList]
    exact h.sections_pair h'
  rw [compile, parse_eq (by simp) sections]
  exact ofPattern_of_short rfl rfl

/-- A second section that the layout does not depend on may be left out. -/
theorem compile_pair_of_eq (h : SectionText u) (ne : u ≠ []) (h' : SectionText v)
    (eq : ∀ source, Layout.compile source (.ofText u) (some (.ofText v)) =
      Layout.compile source (.ofText u) none) :
    compile (String.ofList (u ++ ';' :: v)) =
      (compile (String.ofList u)).map (withSource (String.ofList (u ++ ';' :: v))) := by
  rw [compile_pair h h', compile_single h ne, eq,
    Layout.compile_withSource (String.ofList u) (String.ofList (u ++ ';' :: v))]
  cases Layout.compile (String.ofList u) (.ofText u) none <;> rfl

/-- A negative section is left out where it is the positive one with a minus, or has no character
of a core outside of quotes, whatever marks it has. -/
theorem compile_append_negative (ne : p ≠ "") (h : SectionText p.toList) :
    compile (p ++ ";-" ++ p) = (compile p).map (withSource (p ++ ";-" ++ p)) ∧
    ∀ q : String, SectionText q.toList → NoBareCore q.toList →
      compile (p ++ ";" ++ q) = (compile p).map (withSource (p ++ ";" ++ q)) := by
  have text (v : List Char) :
      p ++ ";" ++ String.ofList v = String.ofList (p.toList ++ ';' :: v) := by
    rw [← String.toList_inj]
    simp
  have ne : p.toList ≠ [] := by simpa using ne
  constructor
  · have minus : p ++ ";-" ++ p = p ++ ";" ++ String.ofList ('-' :: p.toList) := by
      rw [← String.toList_inj]
      simp
    have eq := compile_pair_of_eq h ne h.minus fun _ =>
      Layout.compile_of_negates (negates_ofText h)
    rwa [← text, ← minus, String.ofList_toList] at eq
  · intro q hq bare
    have eq := compile_pair_of_eq h ne hq fun _ =>
      Layout.compile_of_literal (isLiteral_ofText hq bare)
    rwa [← text, String.ofList_toList, String.ofList_toList] at eq

theorem compile_append_negative_of_marks :
    let F := ofSections (.ofTexts "'-'#,##0.0%" "'-'#,##0.0%".toList [])
    "'-'#,##0.0%" ≠ "" ∧ SectionText "'-'#,##0.0%".toList ∧ SectionText "('0'‰)".toList ∧
      NoBareCore "('0'‰)".toList ∧
      compile "'-'#,##0.0%;-'-'#,##0.0%" = .ok (F.withSource "'-'#,##0.0%;-'-'#,##0.0%") ∧
      compile "'-'#,##0.0%;('0'‰)" = .ok (F.withSource "'-'#,##0.0%;('0'‰)") := by
  intro F
  have ne : "'-'#,##0.0%" ≠ "" := by decide
  have text : SectionText "'-'#,##0.0%".toList := ⟨by decide, by decide⟩
  have negative : SectionText "('0'‰)".toList := ⟨by decide, by decide⟩
  have bare : NoBareCore "('0'‰)".toList := by decide
  have compiled : compile "'-'#,##0.0%" = .ok F :=
    compile_eq_ok ne (by decide) (by decide) (by decide)
  obtain ⟨minus, literal⟩ := compile_append_negative ne text
  have literal := literal "('0'‰)" negative bare
  rw [compiled] at minus literal
  exact ⟨ne, text, negative, bare, minus, literal⟩

end NumberFormat

end DecimalPattern
