import DecimalPattern.Proofs.Layout.Check

/-! # Texts in a template

The fourth section of a pattern is a template. A text that is written by it stands at every
unquoted placeholder as it is, and around it the template is shown with its runs of quotes halved.
-/

namespace DecimalPattern

open Glyph

variable {p : String} {F : NumberFormat} {P : Pattern} {sep : Char}
  {cs before u v start t first first' : List Char}
  {others others' pieces pieces' : List (List Char)}

/-! ## Cuts at unquoted characters -/

/-- Every separator in a text has an odd number of quotes before it, those of the text before it
included. -/
def AllQuoted (sep : Char) (before u : List Char) : Prop :=
  ∀ w v, u = w ++ sep :: v → Odd ((before ++ w).count '\'')

/-- A text that stands after another one, cut at its unquoted separators. -/
inductive CutAt (sep : Char) : (before cs : List Char) → (pieces : List (List Char)) → Prop
  | last {before u : List Char} (quoted : AllQuoted sep before u) : CutAt sep before u [u]
  | cut {before u cs : List Char} {pieces : List (List Char)} (quoted : AllQuoted sep before u)
      (even : Even ((before ++ u).count '\'')) (rest : CutAt sep (before ++ u ++ [sep]) cs pieces) :
      CutAt sep before (u ++ sep :: cs) (u :: pieces)

theorem allQuoted_iff (even : Even (before.count '\'')) :
    AllQuoted sep before u ↔ sep ∉ unquoted u := by
  rw [mem_unquoted]
  constructor
  · rintro quoted ⟨w, v, eq, bare⟩
    have odd := quoted w v eq
    rw [List.count_append] at odd
    exact Nat.not_even_iff_odd.mpr odd (even.add bare)
  · intro none w v eq
    rw [List.count_append]
    exact even.add_odd (Nat.not_even_iff_odd.mp fun bare => none ⟨w, v, eq, bare⟩)

/-- Before an unquoted separator there is no further one. -/
theorem AllQuoted.not_append (h : AllQuoted sep before (u ++ sep :: v)) :
    ¬ Even ((before ++ u).count '\'') :=
  Nat.not_even_iff_odd.mpr (h u v rfl)

theorem even_count_snoc (ne : sep ≠ '\'') (even : Even (cs.count '\'')) :
    Even ((cs ++ [sep]).count '\'') := by
  rwa [List.count_append, List.count_singleton, beq_false_of_ne ne]

namespace CutAt

theorem exists_cons (h : CutAt sep before cs pieces) : ∃ u rest, pieces = u :: rest := by
  cases h with
  | last => exact ⟨_, _, rfl⟩
  | cut => exact ⟨_, _, rfl⟩

theorem first_eq {u' v' : List Char} (quoted : AllQuoted sep before u)
    (quoted' : AllQuoted sep before u') (even : Even ((before ++ u).count '\''))
    (even' : Even ((before ++ u').count '\'')) (eq : u' ++ sep :: v' = u ++ sep :: v) :
    u' = u ∧ v' = v := by
  rcases List.append_eq_append_iff.mp eq with ⟨w, rfl, tail⟩ | ⟨w, rfl, tail⟩
  · cases w with
    | nil => simpa using tail
    | cons c w =>
      obtain ⟨rfl, -⟩ := List.cons.inj tail
      exact absurd even' quoted.not_append
  · cases w with
    | nil => simpa [eq_comm] using tail
    | cons c w =>
      obtain ⟨rfl, -⟩ := List.cons.inj tail
      exact absurd even quoted'.not_append

theorem unique (h : CutAt sep before cs pieces) (h' : CutAt sep before cs pieces') :
    pieces' = pieces := by
  induction h generalizing pieces' with
  | last quoted =>
    cases h' with
    | last => rfl
    | cut _ even => exact absurd even quoted.not_append
  | @cut before u cs pieces quoted even rest ih =>
    generalize whole : u ++ sep :: cs = text at h'
    cases h' with
    | last quoted' =>
      subst whole
      exact absurd even quoted'.not_append
    | cut quoted' even' rest' =>
      obtain ⟨rfl, rfl⟩ := first_eq quoted quoted' even even' whole.symm
      rw [ih rest']

end CutAt

/-- A text after closed quotes can be cut. -/
theorem exists_cutAt (ne : sep ≠ '\'') (even : Even (before.count '\'')) (cs : List Char) :
    ∃ pieces, CutAt sep before cs pieces := by
  induction k : cs.length using Nat.strong_induction_on generalizing before cs with
  | _ k ih =>
    obtain ⟨u, v, rfl, bare, next⟩ := exists_unquoted_cut (· == sep) false cs
    have quoted : AllQuoted sep before u :=
      (allQuoted_iff even).mpr fun mem => by simpa using bare sep mem
    cases v with
    | nil =>
      rw [List.append_nil]
      exact ⟨[u], .last quoted⟩
    | cons c v =>
      obtain ⟨closed, found⟩ := next c rfl
      obtain rfl : c = sep := by simpa using found
      have evenBoth : Even ((before ++ u).count '\'') := by
        rw [List.count_append]
        exact even.add (quotedAfter_eq_self_iff.mp closed)
      obtain ⟨pieces, rest⟩ := ih v.length (by simp at k; omega) (even_count_snoc ne evenBoth) v rfl
      exact ⟨u :: pieces, .cut quoted evenBoth rest⟩

/-- The text stands between the pieces of the template. -/
theorem CutAt.flatMap_chars (h : CutAt '@' before cs pieces) (even : Even (before.count '\''))
    (x : String) : (resolve Placeholder.ofChar? false cs).flatMap (chars fun _ => x) =
      x.toList.intercalate (pieces.map halveQuotes) := by
  have literal {u : List Char} : (u.map Glyph.literal).flatMap (chars fun _ : Placeholder => x) = u := by
    simp [List.flatMap_map, chars]
  have resolved {before u : List Char} (even : Even (before.count '\''))
      (quoted : AllQuoted '@' before u) :
      resolve Placeholder.ofChar? false u = (halveQuotes u).map .literal := by
    refine resolve_of_bare fun c hc => if_neg ?_
    rintro rfl
    exact (allQuoted_iff even).mp quoted hc
  induction h with
  | last quoted =>
    rw [resolved even quoted, literal]
    simp
  | @cut before u cs pieces quoted evenBoth rest ih =>
    have closed : quotedAfter false u = false := by
      rw [List.count_append] at evenBoth
      exact quotedAfter_eq_self_iff.mpr ((Nat.even_add.mp evenBoth).mp even)
    obtain ⟨w, ws, rfl⟩ := rest.exists_cons
    have tail := ih (even_count_snoc (by decide) evenBoth)
    have placeholder : ofBare Placeholder.ofChar? '@' = .mark .text := rfl
    rw [resolve_append (.of_head?_ne (by simp)), closed, resolve_cons (by decide),
      List.flatMap_append, List.flatMap_cons, resolved even quoted, literal, tail]
    simp [placeholder, chars, List.intercalate_cons_cons]

/-! ## The fourth section -/

/-- The text after the third unquoted semicolon, and the text before that semicolon. -/
structure FourthText (cs start t : List Char) : Prop where
  whole : cs = start ++ ';' :: t
  even : Even (start.count '\'')
  third : (unquoted start).count ';' = 2

theorem Sections.append (s : Sections u first others []) (s' : Sections v first' others' []) :
    Sections (u ++ ';' :: v) first (others ++ first' :: others') [] where
  texts := by
    intro w hw
    rw [← List.cons_append] at hw
    rcases List.mem_append.mp hw with hw | hw
    · exact s.texts w hw
    · exact s'.texts w hw
  last _ _ := sectionEnd_nil
  stop := .inl rfl
  whole := by
    rw [s.whole, s'.whole]
    simp [joined]

theorem Sections.even_count (s : Sections cs first others []) : Even (cs.count '\'') := by
  induction others generalizing cs first with
  | nil =>
    rw [s.whole, joined_nil, List.append_nil]
    exact (s.texts first List.mem_cons_self).even
  | cons u others ih =>
    rw [s.whole, joined_cons, List.count_append, List.count_cons_of_ne (by decide)]
    exact (s.texts first List.mem_cons_self).even.add (ih s.of_cons)

/-- In a pattern of at most four sections the text after the third semicolon is the fourth. -/
theorem FourthText.mem_others (fourth : FourthText cs start t) (s : Sections cs first others [])
    (few : others.length ≤ 3) : others[2]? = some t := by
  obtain ⟨rfl, even, third⟩ := fourth
  have evenRest : Even (t.count '\'') := by
    have whole := s.even_count
    rw [List.count_append, List.count_cons_of_ne (by decide), Nat.even_add] at whole
    exact whole.mp even
  obtain ⟨a, before, left⟩ := exists_sections even
  obtain ⟨b, after, right⟩ := exists_sections evenRest
  have two : before.length = 2 := left.count_semicolon.symm.trans third
  -- The sections on either side of the semicolon are those of the pattern.
  obtain ⟨rfl, rfl⟩ : a = first ∧ before ++ b :: after = others := by
    simpa using (left.append right).sectionTexts_eq.symm.trans s.sectionTexts_eq
  obtain rfl : after = [] := by
    rw [List.length_append, List.length_cons] at few
    exact List.eq_nil_of_length_eq_zero (by omega)
  have alone : t = b := by simpa using right.whole
  rw [List.getElem?_append_right two.le, two, alone]
  rfl

theorem exists_fourthText (s : Sections cs first others []) (some : others[2]? = some t)
    (few : others.length ≤ 3) : ∃ start, FourthText cs start t := by
  obtain ⟨u, v, rfl⟩ : ∃ u v, others = [u, v, t] := by
    match others, few, some with
    | [u, v, w], _, some => exact ⟨u, v, by simpa using some⟩
  have texts : ∀ w ∈ [first, u, v], SectionText w := fun w hw => s.texts w (by
    simp only [List.mem_cons] at hw ⊢
    tauto)
  have left : Sections (first ++ joined [u, v] []) first [u, v] [] :=
    ⟨⟨texts, fun _ _ => sectionEnd_nil, .inl rfl⟩, rfl⟩
  refine ⟨first ++ joined [u, v] [], ?_, left.even_count, left.count_semicolon⟩
  rw [s.whole]
  simp [joined]

/-! ## Formats -/

/-- The text of a fourth section, by which texts are written. -/
structure FilledBy (F : NumberFormat) (start t : List Char) (pieces : List (List Char)) : Prop where
  cut : CutAt '@' (start ++ [';']) t pieces
  unique : ∀ others, CutAt '@' (start ++ [';']) t others → others = pieces
  filled : ∀ x, (F.formatText x).toList = x.toList.intercalate (pieces.map halveQuotes)

theorem formatText_of_template {T : Template} (h : F.text = some T) (x : String) :
    F.formatText x = T.render x := by
  rw [NumberFormat.formatText, h]

theorem filledBy_ofTexts (s : Sections cs first others []) (few : others.length ≤ 3)
    (fourth : FourthText cs start t) :
    ∃ pieces, FilledBy (.ofSections (.ofTexts p first others)) start t pieces := by
  have found := fourth.mem_others s few
  have text : SectionText t := s.texts t (List.mem_cons_of_mem _ (List.mem_of_getElem? found))
  have even : Even ((start ++ [';']).count '\'') := even_count_snoc (by decide) fourth.even
  obtain ⟨pieces, cut⟩ : ∃ pieces, CutAt '@' (start ++ [';']) t pieces :=
    exists_cutAt (by decide) even t
  refine ⟨pieces, cut, fun _ other => cut.unique other, fun x => ?_⟩
  have template : (NumberFormat.ofSections (.ofTexts p first others)).text =
      some (Segment.ofGlyphs (resolve Placeholder.ofChar? false t)) := by
    rw [← Template.ofText_eq text]
    simp [NumberFormat.ofSections, Pattern.ofTexts, found]
  rw [formatText_of_template template, Template.render, Segment.toList_render,
    Segment.glyphs_ofGlyphs]
  exact cut.flatMap_chars even x

theorem formatText_ofTexts (s : Sections cs first others []) (few : others.length ≤ 3)
    (none : ¬ ∃ start t, FourthText cs start t) (x : String) :
    (NumberFormat.ofSections (.ofTexts p first others)).formatText x = x := by
  have absent : others[2]? = Option.none := by
    refine Option.eq_none_iff_forall_ne_some.mpr fun t some => none ?_
    obtain ⟨start, fourth⟩ := exists_fourthText s some few
    exact ⟨start, t, fourth⟩
  simp [NumberFormat.formatText, NumberFormat.ofSections, Pattern.ofTexts, absent]

/-- The empty pattern stands for the default one, whose fourth section is a lone placeholder. -/
theorem formatText_of_empty (h : NumberFormat.compile "" = .ok F) (x : String) :
    F.formatText x = x := by
  obtain ⟨P, parsed, -, rfl⟩ := compile_eq_ok_iff.mp h
  rw [parse_empty, Pattern.parse_eq_ok (by decide) (by decide) (by decide)] at parsed
  obtain rfl := Except.ok.inj parsed
  have template : (NumberFormat.ofSections (.ofTexts Pattern.defaultSource
      (cutSections false Pattern.defaultSource.toList).1
      (cutSections false Pattern.defaultSource.toList).2)).text = some [.mark .text] := by decide
  rw [formatText_of_template template]
  simp [Template.render, Segment.render]

/-- Texts are written by the fourth section, with a text at every unquoted placeholder; without a
fourth section they stay as they are. -/
theorem formatText_filled (h : NumberFormat.compile p = .ok F) :
    (∀ start t, FourthText p.toList start t → ∃ pieces, FilledBy F start t pieces) ∧
      ((¬ ∃ start t, FourthText p.toList start t) → ∀ x, F.formatText x = x) := by
  by_cases ne : p = ""
  · subst ne
    constructor
    · intro start t fourth
      simpa using fourth.whole
    · intro _ x
      exact formatText_of_empty h x
  · obtain ⟨P, parsed, -, rfl⟩ := compile_eq_ok_iff.mp h
    obtain ⟨first, others, s, few, rfl⟩ := exists_sections_of_parse ne parsed
    constructor
    · intro start t fourth
      exact filledBy_ofTexts s few fourth
    · intro none x
      exact formatText_ofTexts s few none x

/-- One placeholder is quoted and one is not, and the text looks like a template itself. -/
theorem formatText_filled_of_quotes :
    ∃ F, NumberFormat.compile "0;;;''@''';@''%'1" = .ok F ∧
      FilledBy F "0;;".toList "''@''';@''%'1".toList
        ["''".toList, "''';@''%'1".toList] ∧
      F.formatText "'@;" = "''@;';@'%1" := by
  have compiled := compile_eq_ok (p := "0;;;''@''';@''%'1") (by decide) (by decide) (by decide)
    (by decide)
  refine ⟨_, compiled, ?_⟩
  have fourth : FourthText "0;;;''@''';@''%'1".toList "0;;".toList "''@''';@''%'1".toList :=
    ⟨by decide, by decide, by decide⟩
  obtain ⟨pieces, filled⟩ := (formatText_filled compiled).1 _ _ fourth
  have before : AllQuoted '@' "0;;;".toList "''".toList :=
    (allQuoted_iff (by decide)).mpr (by decide)
  have after : AllQuoted '@' "0;;;''@".toList "''';@''%'1".toList :=
    (allQuoted_iff (by decide)).mpr (by decide)
  obtain rfl := filled.unique _ (.cut before (by decide) (.last after))
  refine ⟨filled, ?_⟩
  rw [← String.toList_inj, filled.filled]
  decide

end DecimalPattern
