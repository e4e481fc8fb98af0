import DecimalPattern.Proofs.Pattern.Splitting

/-! # Decomposition of sections

The text of a section is cut in one way only: into the longest start without an unquoted character
of a core, the longest text of a core after it, and what is left. The two affixes show the outer
parts with their runs of quotes halved, and their marks stand for the unquoted marks there.
-/

namespace DecimalPattern

open Glyph

variable {cs u a b c a' b' c' : List Char} {core : Core} {p : String} {P : Pattern}
  {s : NumberSection}

/-- The longest start of a text that has a property. -/
structure LongestStart (good : List Char → Prop) (u cs : List Char) : Prop where
  start : u <+: cs
  holds : good u
  longest : ∀ u', u' <+: cs → good u' → u'.length ≤ u.length

theorem LongestStart.unique {good : List Char → Prop} {u' : List Char}
    (h : LongestStart good u cs) (h' : LongestStart good u' cs) : u' = u := by
  have short := h.longest u' h'.start h'.holds
  have long := h'.longest u h.start h.holds
  exact (List.prefix_of_prefix_length_le h'.start h.start short).eq_of_length (by omega)

/-- A text with no unquoted character that starts a core. -/
def NoBareCore (u : List Char) : Prop := ∀ x ∈ unquoted u, startsCore x = false

instance (u : List Char) : Decidable (NoBareCore u) :=
  decidable_of_iff ((unquoted u).all fun x => !startsCore x) (by simp [NoBareCore])

/-- The cut of a section's text into the part before the core, the core and the part after it. -/
structure Decomposition (cs a c b : List Char) : Prop where
  whole : cs = a ++ (c ++ b)
  before : LongestStart NoBareCore a cs
  core : LongestStart (fun c => ∃ core, CoreText c core) c (c ++ b)

theorem Decomposition.unique (d : Decomposition cs a c b) (d' : Decomposition cs a' c' b') :
    a' = a ∧ c' = c ∧ b' = b := by
  obtain rfl := d.before.unique d'.before
  have rest : c' ++ b' = c ++ b := List.append_cancel_left (d'.whole.symm.trans d.whole)
  have core := d'.core
  rw [rest] at core
  obtain rfl := d.core.unique core
  exact ⟨rfl, rfl, List.append_cancel_left rest⟩

theorem SectionParts.longest_before (parts : SectionParts u a c b core) :
    LongestStart NoBareCore a u := by
  refine ⟨⟨c ++ b, parts.whole.symm⟩, parts.bare, fun a' start bare => ?_⟩
  by_contra long
  -- a longer start holds the character at which the core starts
  obtain ⟨v, rfl⟩ : a <+: a' :=
    List.prefix_of_prefix_length_le ⟨c ++ b, parts.whole.symm⟩ start (by omega)
  have rest : v <+: c ++ b := by
    rw [parts.whole] at start
    exact (List.prefix_append_right_inj a).mp start
  cases v with
  | nil => simp at long
  | cons x v =>
    obtain ⟨w, eq⟩ := rest
    obtain ⟨closed, core⟩ := parts.next x (by rw [← eq]; rfl)
    have mem : x ∈ unquoted (a ++ x :: v) := by
      rw [unquoted_append closed]
      simp [unquotedFrom]
    exact Bool.false_ne_true ((bare x mem).symm.trans core)

theorem SectionParts.longest_core (parts : SectionParts u a c b core) :
    LongestStart (fun c => ∃ core, CoreText c core) c (c ++ b) := by
  refine ⟨List.prefix_append c b, ⟨core, parts.text⟩, fun c' start text => ?_⟩
  obtain ⟨core', text⟩ := text
  obtain ⟨rest, eq⟩ := start
  have short := @Core.length_read_le c' rest core' text
  rw [eq, parts.read] at short
  have lengths := congrArg List.length eq
  simp only [List.length_append] at lengths
  show c'.length ≤ c.length
  have : b.length ≤ rest.length := short
  omega

theorem SectionParts.decomposition (parts : SectionParts u a c b core) : Decomposition u a c b :=
  ⟨parts.whole, parts.longest_before, parts.longest_core⟩

/-- A text is cut where a core is read after a start without one. -/
theorem decomposition_of_read (whole : u = a ++ (c ++ b)) (bare : NoBareCore a)
    (closed : quotedAfter false a = false) (start : (c ++ b).head?.all startsCore)
    (read : (Core.read (c ++ b)).2 = b) : Decomposition u a c b := by
  obtain ⟨text, split, isCore⟩ := Core.read_sound (c ++ b)
  rw [read] at split
  obtain rfl := List.append_cancel_right split
  have next : ∀ x ∈ (c ++ b).head?, quotedAfter false a = false ∧ startsCore x :=
    fun x hx => ⟨closed, (Option.all_eq_true _ _).mp start x hx⟩
  exact SectionParts.decomposition ⟨whole, bare, next, isCore, Prod.ext rfl read⟩

theorem ScaleMark.toList_render {x : Char} {m : ScaleMark} (h : ScaleMark.ofChar? x = some m) :
    m.render.toList = [x] := by
  unfold ScaleMark.ofChar? at h
  split_ifs at h with percent permille
  · obtain rfl := Option.some.inj h
    rw [percent]
    rfl
  · obtain rfl := Option.some.inj h
    rw [permille]
    rfl

/-- An affix that stands for a text. -/
structure AffixOf (u : List Char) (affix : Affix) : Prop where
  even : Even (u.count '\'')
  render : affix.render = String.ofList (halveQuotes u)
  spells : Segment.Spells ScaleMark.ofChar? u affix
  normal : Segment.Normal affix

theorem affixOf_ofGlyphs (even : Even (u.count '\'')) :
    AffixOf u (Segment.ofGlyphs (resolve ScaleMark.ofChar? false u)) where
  even := even
  render := by
    rw [← String.toList_inj, String.toList_ofList]
    exact Segment.toList_render_ofGlyphs_resolve fun _ _ => ScaleMark.toList_render
  spells := Segment.spells_ofGlyphs_resolve rfl even
  normal := Segment.normal_ofGlyphs _

/-- Each number section is read off the only decomposition of its text. -/
theorem section_decomposition (h : Pattern.parse p = .ok P) (hs : s ∈ P.numberSections) :
    ∃ a c b, Decomposition s.source.toList a c b ∧
      (∀ a' c' b', Decomposition s.source.toList a' c' b' → a' = a ∧ c' = c ∧ b' = b) ∧
      (∀ core, CoreText c core ↔ core = s.core) ∧
      AffixOf a s.before ∧ AffixOf b s.after ∧ (c = [] → b = []) := by
  obtain ⟨u, text, rfl⟩ := exists_text_of_mem h hs
  obtain ⟨a, c, b, core, parts⟩ := exists_sectionParts u
  rw [NumberSection.source_ofText text, String.toList_ofList, parts.ofText_eq text]
  refine ⟨a, c, b, parts.decomposition, ?_, ?_, ?_, ?_, parts.eq_nil_of_core⟩
  · exact fun a' c' b' d' => parts.decomposition.unique d'
  · intro core'
    constructor
    · exact parts.text.unique
    · rintro rfl
      exact parts.text
  · exact affixOf_ofGlyphs (parts.even_before text)
  · exact affixOf_ofGlyphs (parts.even_after text)

theorem section_decomposition_of_quoted_core :
    Pattern.parse "0;'#'%.0E5‰''" =
        .ok (Pattern.ofTexts "0;'#'%.0E5‰''" ['0'] ["'#'%.0E5‰''".toList]) ∧
      NumberSection.ofText "'#'%.0E5‰''".toList ∈
        (Pattern.ofTexts "0;'#'%.0E5‰''" ['0'] ["'#'%.0E5‰''".toList]).numberSections ∧
      ∃ a c b, Decomposition "'#'%.0E5‰''".toList a c b ∧ ∀ core, CoreText c core ↔
        core = [.point, .digit (.required '0'), .exponent ⟨false, 1⟩] := by
  have parsed : Pattern.parse "0;'#'%.0E5‰''" = _ :=
    Pattern.parse_eq_ok (by decide) (by decide) (by decide)
  have second : NumberSection.ofText "'#'%.0E5‰''".toList ∈
      (Pattern.ofTexts "0;'#'%.0E5‰''" ['0'] ["'#'%.0E5‰''".toList]).numberSections := by
    simp [Pattern.numberSections, Pattern.ofTexts]
  obtain ⟨a, c, b, decomposition, -, core, -⟩ := section_decomposition parsed second
  exact ⟨parsed, second, a, c, b, decomposition, core⟩

end DecimalPattern
