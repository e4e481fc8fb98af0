import DecimalPattern.Pattern.Section
import DecimalPattern.Proofs.Pattern.CoreText
import DecimalPattern.Proofs.Pattern.Spelling

/-! # Texts of sections

The text of a section is an affix, a core and a second affix, each as long as it can be. A section
is read in this way wherever it ends, so that what is read of it depends on its text alone.
-/

namespace DecimalPattern

open Glyph

variable {u v a b c rest cs : List Char} {core : Core}

/-- A text with no unquoted semicolon whose quotes are all closed. -/
structure SectionText (u : List Char) : Prop where
  even : Even (u.count '\'')
  bare : ';' ∉ unquoted u

/-- A section ends at a semicolon, at the end of the pattern or at a quote that is never closed. -/
structure SectionEnd (u rest : List Char) : Prop where
  apart : PairsApart u rest
  stop : Stops (· == ';') rest

theorem sectionEnd_nil : SectionEnd u [] := ⟨.of_head?_ne (by simp), by simp [Stops]⟩

theorem sectionEnd_semicolon : SectionEnd u (';' :: rest) :=
  ⟨.of_head?_ne (by simp), by simp [Stops]⟩

theorem sectionEnd_dangling (even : evenEnd u) (h : Dangling rest) : SectionEnd u rest :=
  ⟨fun _ => even, fun _ _ => .inr h⟩

theorem Stops.head (h : Stops (· == ';') rest) : ∀ x ∈ rest.head?, x = ';' ∨ x = '\'' := by
  intro x hx
  rcases h x hx with ⟨-, semicolon⟩ | ⟨inner, rfl, -⟩
  · exact .inl (by simpa using semicolon)
  · exact .inr (by simpa using hx.symm)

theorem Stops.coreEnds (h : Stops (· == ';') rest) : Core.Ends rest := by
  intro x hx
  rcases h.head x hx with rfl | rfl <;> decide

theorem SectionText.closed (h : SectionText u) : quotedAfter false u = false :=
  quotedAfter_eq_self_iff.mpr h.even

theorem beq_semicolon_of_not_mem (h : ';' ∉ unquoted u) : ∀ x ∈ unquoted u, (x == ';') = false :=
  fun _ hx => beq_false_of_ne fun eq => h (eq ▸ hx)

theorem consumed_append (u rest : List Char) : consumed (u ++ rest) rest = u := by
  simp [consumed]

/-! ## Cores inside of a section -/

theorem CoreText.count_quote (h : CoreText c core) : c.count '\'' = 0 :=
  List.count_eq_zero.mpr (h.not_mem (by decide))

theorem CoreText.closed (h : CoreText c core) : quotedAfter false c = false :=
  quotedAfter_eq_self_iff.mpr (by rw [h.count_quote]; exact Even.zero)

theorem CoreText.evenEnd_append (h : CoreText c core) (ne : c ≠ []) :
    evenEnd (a ++ (c ++ b)) = evenEnd b := by
  obtain ⟨front, last, rfl⟩ := (List.eq_nil_or_concat' c).resolve_left ne
  have hl : last ≠ '\'' := by
    rintro rfl
    exact @CoreText.not_mem _ _ h '\'' (by decide) (by simp)
  have shape : a ++ (front ++ [last] ++ b) = (a ++ front) ++ last :: b := by simp
  rw [shape, evenEnd_append_cons _ hl]

/-- The part of a section's text before the core, the core, and the part after it. -/
structure SectionParts (u a c b : List Char) (core : Core) : Prop where
  whole : u = a ++ (c ++ b)
  bare : ∀ x ∈ unquoted a, startsCore x = false
  next : ∀ x ∈ (c ++ b).head?, quotedAfter false a = false ∧ startsCore x
  text : CoreText c core
  read : Core.read (c ++ b) = (core, b)

theorem exists_sectionParts (u : List Char) : ∃ a c b core, SectionParts u a c b core := by
  obtain ⟨a, v, rfl, bare, next⟩ := exists_unquoted_cut startsCore false u
  obtain ⟨c, split, text⟩ := Core.read_sound v
  refine ⟨a, c, (Core.read v).2, (Core.read v).1, ⟨by rw [← split], bare, ?_, text, ?_⟩⟩
  · rwa [← split]
  · rw [← split]

namespace SectionParts

/-- Without a core there is nothing after it. -/
theorem eq_nil_of_core (p : SectionParts u a c b core) (hc : c = []) : b = [] := by
  subst hc
  cases b with
  | nil => rfl
  | cons x b =>
    have start := (p.next x rfl).2
    exact absurd (congrArg Prod.snd p.read) (Core.read_ne_self start)

theorem even_before (p : SectionParts u a c b core) (h : SectionText u) :
    Even (a.count '\'') := by
  by_cases hc : c = []
  · have := h.even
    rwa [p.whole, hc, p.eq_nil_of_core hc, List.append_nil, List.append_nil] at this
  · obtain ⟨x, c, rfl⟩ := List.exists_cons_of_ne_nil hc
    exact quotedAfter_eq_self_iff.mp (p.next x rfl).1

theorem even_after (p : SectionParts u a c b core) (h : SectionText u) :
    Even (b.count '\'') := by
  have := h.even
  rw [p.whole, List.count_append, List.count_append, p.text.count_quote, Nat.zero_add] at this
  exact (Nat.even_add.mp this).mp (p.even_before h)

theorem unquoted_eq (p : SectionParts u a c b core) (h : SectionText u) :
    unquoted u = unquoted a ++ (unquoted c ++ unquoted b) := by
  have closed : quotedAfter false a = false := quotedAfter_eq_self_iff.mpr (p.even_before h)
  rw [p.whole, unquoted_append closed, unquoted_append p.text.closed]

theorem semicolon_not_mem_before (p : SectionParts u a c b core) (h : SectionText u) :
    ';' ∉ unquoted a := by
  have := h.bare
  rw [p.unquoted_eq h] at this
  exact fun hs => this (List.mem_append_left _ hs)

theorem semicolon_not_mem_after (p : SectionParts u a c b core) (h : SectionText u) :
    ';' ∉ unquoted b := by
  have := h.bare
  rw [p.unquoted_eq h] at this
  exact fun hs => this (List.mem_append_right _ (List.mem_append_right _ hs))

theorem readBeforeCore_eq (p : SectionParts u a c b core) (h : SectionText u)
    (e : SectionEnd u rest) :
    Affix.readBeforeCore (a ++ (c ++ b ++ rest)) =
      (Segment.ofGlyphs (resolve ScaleMark.ofChar? false a), c ++ b ++ rest) := by
  have closed : quotedAfter false a = false := quotedAfter_eq_self_iff.mpr (p.even_before h)
  have bare : ∀ x ∈ unquoted a, (x == ';' || startsCore x) = false := by
    intro x hx
    have ne : x ≠ ';' := fun eq => p.semicolon_not_mem_before h (eq ▸ hx)
    simp [ne, p.bare x hx]
  cases core' : c ++ b with
  | nil =>
    obtain ⟨rfl, rfl⟩ := List.append_eq_nil_iff.mp core'
    have whole : u = a := by simpa using p.whole
    have stop : Stops (fun x => x == ';' || startsCore x) rest := fun x hx =>
      (e.stop x hx).imp_left fun ⟨quote, semicolon⟩ => ⟨quote, by simp [semicolon]⟩
    exact Segment.read_append closed bare (whole ▸ e.apart) stop
  | cons x v =>
    have start : startsCore x := (p.next x (by rw [core']; rfl)).2
    have quote : x ≠ '\'' := by rintro rfl; exact absurd start (by decide)
    apply Segment.read_append closed bare (.of_head?_ne (by simpa using quote))
    intro y hy
    obtain rfl : x = y := by simpa using hy
    exact .inl ⟨quote, by simp [start]⟩

theorem readAfterCore_eq (p : SectionParts u a c b core) (h : SectionText u)
    (e : SectionEnd u rest) :
    Affix.readAfterCore (b ++ rest) =
      (Segment.ofGlyphs (resolve ScaleMark.ofChar? false b), rest) := by
  have closed : quotedAfter false b = false := quotedAfter_eq_self_iff.mpr (p.even_after h)
  have bare := beq_semicolon_of_not_mem (p.semicolon_not_mem_after h)
  have apart : PairsApart b rest := by
    intro next
    by_cases hc : c = []
    · rw [p.eq_nil_of_core hc]
      rfl
    · have even := e.apart next
      rwa [p.whole, p.text.evenEnd_append hc] at even
  exact Segment.read_append closed bare apart e.stop

/-- A section is read off its parts, wherever it ends. -/
theorem read_eq (p : SectionParts u a c b core) (h : SectionText u) (e : SectionEnd u rest) :
    NumberSection.read (u ++ rest) =
      (⟨String.ofList u, Segment.ofGlyphs (resolve ScaleMark.ofChar? false a), core,
        Segment.ofGlyphs (resolve ScaleMark.ofChar? false b)⟩, rest) := by
  have shape : u ++ rest = a ++ (c ++ b ++ rest) := by rw [p.whole]; simp
  have middle : Core.read (c ++ b ++ rest) = (core, b ++ rest) := by
    rw [Core.read_append e.stop.coreEnds, p.read]
  have before := p.readBeforeCore_eq h e
  have after := p.readAfterCore_eq h e
  rw [← shape] at before
  simp only [NumberSection.read, before, middle, after, consumed_append]

end SectionParts

end DecimalPattern
