import DecimalPattern.Proofs.Pattern.Splitting

/-! # Printing and reading back

A pattern is printed section by section: a text in quotes with its own quotes doubled, a text of
nothing but quotes with these doubled, and marks and tokens as they are written. Reading gives back
every pattern of a form that reading can produce.
-/

namespace DecimalPattern

open Glyph

variable {μ : Type} {mark? : Char → Option μ} {written : μ → List Char} {quoted : Bool}
  {cs : List Char} {segments : List (Segment μ)} {core : Core} {ts : List Token}
  {s : NumberSection} {P : Pattern}

/-! ## Literal texts -/

def doubleQuotes (cs : List Char) : List Char :=
  cs.flatMap fun c => if c = '\'' then ['\'', '\''] else [c]

/-- How a literal text is written. -/
def quoteText (cs : List Char) : List Char :=
  if cs.all (· == '\'') then doubleQuotes cs else '\'' :: (doubleQuotes cs ++ ['\''])

theorem quoteText_of_quotes (h : ∀ c ∈ cs, c = '\'') : quoteText cs = doubleQuotes cs := by
  rw [quoteText, if_pos (by simpa using h)]

theorem quoteText_of_other (h : ¬ ∀ c ∈ cs, c = '\'') :
    quoteText cs = '\'' :: (doubleQuotes cs ++ ['\'']) := by
  rw [quoteText, if_neg (by simpa using h)]

theorem doubleQuotes_quote : doubleQuotes ('\'' :: cs) = '\'' :: '\'' :: doubleQuotes cs := rfl

theorem doubleQuotes_cons {c : Char} (hc : c ≠ '\'') :
    doubleQuotes (c :: cs) = c :: doubleQuotes cs := by
  simp [doubleQuotes, hc]

theorem quotedAfter_doubleQuotes : quotedAfter quoted (doubleQuotes cs) = quoted := by
  induction cs with
  | nil => rfl
  | cons c cs ih =>
    by_cases hc : c = '\''
    · subst hc
      simpa [doubleQuotes_quote] using ih
    · rw [doubleQuotes_cons hc, quotedAfter_cons_of_ne hc, ih]

theorem mem_unquotedFrom_doubleQuotes {c : Char} (h : c ∈ unquotedFrom true (doubleQuotes cs)) :
    c = '\'' := by
  induction cs with
  | nil => simp [doubleQuotes] at h
  | cons d cs ih =>
    by_cases hd : d = '\''
    · subst hd
      rw [doubleQuotes_quote] at h
      simp only [unquotedFrom, if_true, beq_self_eq_true, Bool.xor_true, Bool.not_true,
        Bool.false_eq_true, if_false, Bool.not_false] at h
      rcases List.mem_cons.mp h with rfl | h
      · rfl
      · exact ih h
    · rw [doubleQuotes_cons hd] at h
      simp only [unquotedFrom, if_true, beq_false_of_ne hd, Bool.xor_false] at h
      exact ih h

theorem doubleQuotes_eq_replicate (h : ∀ c ∈ cs, c = '\'') :
    doubleQuotes cs = List.replicate (2 * cs.length) '\'' := by
  induction cs with
  | nil => rfl
  | cons c cs ih =>
    obtain rfl := h c List.mem_cons_self
    rw [doubleQuotes_quote, ih fun d hd => h d (List.mem_cons_of_mem _ hd)]
    rfl

theorem quotedAfter_quoteText : quotedAfter false (quoteText cs) = false := by
  by_cases quotes : ∀ c ∈ cs, c = '\''
  · rw [quoteText_of_quotes quotes, quotedAfter_doubleQuotes]
  · simp [quoteText_of_other quotes, quotedAfter_doubleQuotes]

/-- Of a written text, only quotes are unquoted. -/
theorem mem_unquoted_quoteText {c : Char} (h : c ∈ unquoted (quoteText cs)) : c = '\'' := by
  by_cases quotes : ∀ c ∈ cs, c = '\''
  · rw [quoteText_of_quotes quotes, doubleQuotes_eq_replicate quotes] at h
    obtain ⟨before, after, eq, -⟩ := mem_unquoted.mp h
    exact (List.mem_replicate.mp (eq ▸ List.mem_append_right before List.mem_cons_self)).2
  · rw [quoteText_of_other quotes] at h
    rcases List.mem_cons.mp h with rfl | h
    · rfl
    · rw [Bool.false_xor, beq_self_eq_true, unquotedFrom_append, quotedAfter_doubleQuotes] at h
      rcases List.mem_append.mp h with h | h
      · exact mem_unquotedFrom_doubleQuotes h
      · simp [unquotedFrom] at h

theorem resolve_inside : resolve mark? true (doubleQuotes cs ++ ['\'']) = cs.map .literal := by
  induction cs with
  | nil => rfl
  | cons c cs ih =>
    by_cases hc : c = '\''
    · subst hc
      simp [doubleQuotes_quote, resolve, ih]
    · rw [doubleQuotes_cons hc, List.cons_append, resolve_cons hc, ih]
      rfl

theorem resolve_quoteText : resolve mark? false (quoteText cs) = cs.map .literal := by
  by_cases quotes : ∀ c ∈ cs, c = '\''
  · rw [quoteText_of_quotes quotes]
    induction cs with
    | nil => rfl
    | cons c cs ih =>
      obtain rfl := quotes c List.mem_cons_self
      rw [doubleQuotes_quote, resolve, ih fun d hd => quotes d (List.mem_cons_of_mem _ hd)]
      rfl
  · rw [quoteText_of_other quotes]
    induction cs with
    | nil => exact absurd (by simp) quotes
    | cons c cs ih =>
      by_cases hc : c = '\''
      · subst hc
        rw [doubleQuotes_quote, List.cons_append, List.cons_append, resolve, ih]
        · rfl
        · simpa using quotes
      · rw [doubleQuotes_cons hc, List.cons_append, resolve_single (by simpa using hc),
          resolve_cons hc, Bool.not_false, resolve_inside]
        rfl

/-! ## Segments -/

namespace Segment

def write (written : μ → List Char) : List (Segment μ) → List Char
  | [] => []
  | text s :: segments => quoteText s.toList ++ write written segments
  | mark m :: segments => written m ++ write written segments

/-- A mark is written as one character that is not a quote, and that is read as the mark. -/
def ReadBack (mark? : Char → Option μ) (written : μ → List Char) : Prop :=
  ∀ m, ∃ c, written m = [c] ∧ c ≠ '\'' ∧ mark? c = some m

theorem quotedAfter_write (h : ReadBack mark? written) :
    quotedAfter false (write written segments) = false := by
  induction segments with
  | nil => rfl
  | cons segment segments ih =>
    cases segment with
    | text s => rw [write, quotedAfter_append, quotedAfter_quoteText, ih]
    | mark m =>
      obtain ⟨c, eq, hc, -⟩ := h m
      rw [write, eq, List.singleton_append, quotedAfter_cons_of_ne hc, ih]

theorem mem_unquoted_write (h : ReadBack mark? written) {c : Char}
    (hc : c ∈ unquoted (write written segments)) : c = '\'' ∨ ∃ m, written m = [c] := by
  induction segments with
  | nil => simp [write] at hc
  | cons segment segments ih =>
    cases segment with
    | text s =>
      rw [write, unquoted_append quotedAfter_quoteText] at hc
      rcases List.mem_append.mp hc with hc | hc
      · exact .inl (mem_unquoted_quoteText hc)
      · exact ih hc
    | mark m =>
      obtain ⟨d, eq, hd, -⟩ := h m
      have closed : quotedAfter false (written m) = false := by
        rw [eq, quotedAfter_cons_of_ne hd, quotedAfter_nil]
      rw [write, unquoted_append closed] at hc
      rcases List.mem_append.mp hc with hc | hc
      · have same : c = d := by
          rw [eq] at hc
          simpa [unquotedFrom] using hc
        exact .inr ⟨m, by rw [eq, same]⟩
      · exact ih hc

theorem head?_write_ne (h : ReadBack mark? written)
    (next : ∀ segment ∈ segments.head?, segment.isText = false) :
    (write written segments).head? ≠ some '\'' := by
  cases segments with
  | nil => simp [write]
  | cons segment segments =>
    cases segment with
    | text s => exact absurd (next (text s) rfl) Bool.noConfusion
    | mark m =>
      obtain ⟨c, eq, hc, -⟩ := h m
      rw [write, eq]
      simpa using hc

theorem resolve_write (h : ReadBack mark? written) (normal : Normal segments) :
    resolve mark? false (write written segments) = glyphs segments := by
  induction segments with
  | nil => rfl
  | cons segment segments ih =>
    cases segment with
    | text s =>
      obtain ⟨-, next, normal⟩ := normal_text_cons.mp normal
      rw [write, resolve_append (.of_head?_ne (head?_write_ne h next)), quotedAfter_quoteText,
        resolve_quoteText, ih normal]
      rfl
    | mark m =>
      obtain ⟨c, eq, hc, found⟩ := h m
      rw [write, eq, List.singleton_append, resolve_cons hc, ih (normal_mark_cons.mp normal)]
      simp [ofBare, found, glyphs]

theorem ofGlyphs_resolve_write (h : ReadBack mark? written) (normal : Normal segments) :
    ofGlyphs (resolve mark? false (write written segments)) = segments := by
  rw [resolve_write h normal, ofGlyphs_glyphs normal]

end Segment

/-! ## Cores -/

namespace Core

/-- A digit placeholder with its digit, or a grouping separator. -/
def RunToken : Token → Prop
  | .digit (.required c) => c.isDigit
  | .digit _ => True
  | .grouping => True
  | _ => False

/-- A run, or two with a point between them. -/
inductive MantissaForm : List Token → Prop
  | integer {ts : List Token} (h : ∀ t ∈ ts, RunToken t) : MantissaForm ts
  | fraction {ts us : List Token} (h : ∀ t ∈ ts, RunToken t) (h' : ∀ t ∈ us, RunToken t) :
      MantissaForm (ts ++ .point :: us)

/-- A mantissa, which has an exponent after it only if it is not empty. -/
inductive WellFormed : Core → Prop
  | mantissa {ts : List Token} (h : MantissaForm ts) : WellFormed ts
  | exponent {ts : List Token} (h : MantissaForm ts) (ne : ts ≠ []) (e : Exponent) :
      WellFormed (ts ++ [.exponent e])

def write (core : Core) : List Char := core.render.toList

theorem write_eq (core : Core) : write core = core.flatMap Token.render := by
  simp [write, render]

theorem forall₂_write (h : ∀ t ∈ ts, RunToken t) : List.Forall₂ RunChar (write ts) ts := by
  rw [write_eq]
  induction ts with
  | nil => exact .nil
  | cons t ts ih =>
    have rest := ih fun t ht => h t (List.mem_cons_of_mem _ ht)
    have head := h t List.mem_cons_self
    cases t with
    | digit d =>
      cases d with
      | required c => exact .cons (.required head) rest
      | optional => exact .cons .optional rest
      | significant => exact .cons .significant rest
    | grouping => exact .cons .grouping rest
    | point => exact head.elim
    | exponent e => exact head.elim

theorem mantissaText_write (h : MantissaForm ts) : MantissaText (write ts) ts := by
  cases h with
  | integer h => exact .integer (forall₂_write h)
  | fraction h h' =>
    have left := forall₂_write h
    have right := forall₂_write h'
    rw [write_eq] at left right ⊢
    rw [List.flatMap_append, List.flatMap_cons]
    exact .fraction left right

theorem exponentText_render (e : Exponent) : ExponentText (Token.exponent e).render e := by
  have zeros : ∀ d ∈ List.replicate e.minDigits '0', d.isDigit := by
    intro d hd
    rw [List.eq_of_mem_replicate hd]
    rfl
  obtain ⟨plus, n⟩ := e
  cases plus with
  | true => simpa [Token.render] using ExponentText.plus zeros
  | false => simpa [Token.render] using ExponentText.bare zeros

theorem coreText_write (h : WellFormed core) : CoreText (write core) core := by
  cases h with
  | mantissa h => exact .mantissa (mantissaText_write h)
  | exponent h ne e =>
    have text := mantissaText_write h
    rw [write_eq] at text ⊢
    rw [List.flatMap_append, List.flatMap_singleton]
    exact .exponent text (text.ne_nil_iff.mp ne) (exponentText_render e)

theorem startsCore_write (h : WellFormed core) : ∀ c ∈ (write core).head?, startsCore c := by
  intro c hc
  have mantissa : ∀ {ts : List Token}, MantissaForm ts → ∀ c ∈ write ts, startsCore c :=
    fun h => (mantissaText_write h).startsCore
  cases h with
  | mantissa h => exact mantissa h c (List.mem_of_mem_head? hc)
  | @exponent ts h ne e =>
    have text := mantissaText_write h
    have nonempty : write ts ≠ [] := text.ne_nil_iff.mp ne
    have head : (write (ts ++ [.exponent e])).head? = (write ts).head? := by
      rw [write_eq] at nonempty ⊢
      rw [write_eq, List.flatMap_append]
      exact List.head?_append_of_ne_nil _ nonempty
    rw [head] at hc
    exact mantissa h c (List.mem_of_mem_head? hc)

end Core

/-! ## Sections -/

namespace ScaleMark

def write (m : ScaleMark) : List Char := m.render.toList

theorem readBack : Segment.ReadBack ofChar? write := by
  rintro (_ | _)
  · exact ⟨'%', rfl, by decide, rfl⟩
  · exact ⟨'‰', rfl, by decide, rfl⟩

theorem mem_unquoted_write {affix : Affix} {c : Char}
    (h : c ∈ unquoted (Segment.write write affix)) : c = '\'' ∨ c = '%' ∨ c = '‰' := by
  rcases Segment.mem_unquoted_write readBack h with rfl | ⟨m, hm⟩
  · exact .inl rfl
  · cases m with
    | percent => exact .inr (.inl (List.singleton_inj.mp hm).symm)
    | permille => exact .inr (.inr (List.singleton_inj.mp hm).symm)

end ScaleMark

namespace NumberSection

def write (s : NumberSection) : List Char :=
  Segment.write ScaleMark.write s.before ++
    (Core.write s.core ++ Segment.write ScaleMark.write s.after)

/-- The form of every section that is read. -/
structure WellFormed (s : NumberSection) : Prop where
  before : Segment.Normal s.before
  core : s.core.WellFormed
  after : Segment.Normal s.after
  after_eq_nil : s.core = [] → s.after = []

/-- The section with the text it is written as for its source. -/
def rewritten (s : NumberSection) : NumberSection := { s with source := String.ofList s.write }

theorem parts_write (h : s.WellFormed) :
    SectionParts s.write (Segment.write ScaleMark.write s.before) (Core.write s.core)
      (Segment.write ScaleMark.write s.after) s.core where
  whole := rfl
  bare := by
    intro c hc
    rcases ScaleMark.mem_unquoted_write hc with rfl | rfl | rfl <;> decide
  next := by
    intro c hc
    refine ⟨Segment.quotedAfter_write ScaleMark.readBack, ?_⟩
    have text := Core.coreText_write h.core
    by_cases empty : Core.write s.core = []
    · have nothing : s.core = [] := by
        have nil : CoreText [] [] := .mantissa (.integer .nil)
        exact nil.unique (empty ▸ text)
      rw [empty, h.after_eq_nil nothing] at hc
      simp [Segment.write] at hc
    · rw [List.head?_append_of_ne_nil _ empty] at hc
      exact Core.startsCore_write h.core c hc
  text := Core.coreText_write h.core
  read := by
    apply Core.read_of_text (Core.coreText_write h.core)
    intro c hc
    have bare : c ∈ unquoted (Segment.write ScaleMark.write s.after) := by
      obtain ⟨rest, eq⟩ := List.head?_eq_some_iff.mp hc
      simp [eq, unquotedFrom]
    rcases ScaleMark.mem_unquoted_write bare with rfl | rfl | rfl <;> decide

theorem sectionText_write (h : s.WellFormed) : SectionText s.write := by
  have closed : ∀ affix : Affix, quotedAfter false (Segment.write ScaleMark.write affix) = false :=
    fun _ => Segment.quotedAfter_write ScaleMark.readBack
  have text := Core.coreText_write h.core
  have core : quotedAfter false (Core.write s.core) = false := text.closed
  constructor
  · rw [write, ← @quotedAfter_eq_self_iff false, quotedAfter_append, closed,
      quotedAfter_append, core, closed]
  · have bare : ∀ affix : Affix, ';' ∉ unquoted (Segment.write ScaleMark.write affix) := by
      intro affix hs
      have := ScaleMark.mem_unquoted_write hs
      exact absurd this (by decide)
    have token : ';' ∉ unquoted (Core.write s.core) := by
      intro hs
      obtain ⟨before, after, eq, -⟩ := mem_unquoted.mp hs
      exact text.not_mem (by decide) (eq ▸ List.mem_append_right before List.mem_cons_self)
    rw [write, unquoted_append (closed _), unquoted_append core, List.mem_append, List.mem_append]
    rintro (hs | hs | hs)
    · exact bare _ hs
    · exact token hs
    · exact bare _ hs

theorem ofText_write (h : s.WellFormed) : ofText s.write = s.rewritten := by
  rw [(parts_write h).ofText_eq (sectionText_write h),
    Segment.ofGlyphs_resolve_write ScaleMark.readBack h.before,
    Segment.ofGlyphs_resolve_write ScaleMark.readBack h.after]
  rfl

end NumberSection

namespace Template

def write (template : Template) : List Char := Segment.write (fun _ => ['@']) template

theorem readBack : Segment.ReadBack Placeholder.ofChar? fun _ => ['@'] :=
  fun _ => ⟨'@', rfl, by decide, rfl⟩

theorem sectionText_write (template : Template) : SectionText template.write where
  even := quotedAfter_eq_self_iff.mp (Segment.quotedAfter_write readBack)
  bare hs := by
    rcases Segment.mem_unquoted_write readBack hs with eq | ⟨-, eq⟩
    · exact absurd eq (by decide)
    · exact absurd eq (by decide)

theorem ofText_write {template : Template} (h : Segment.Normal template) :
    ofText template.write = template := by
  rw [ofText_eq (sectionText_write template)]
  exact Segment.ofGlyphs_resolve_write readBack h

end Template

/-! ## Patterns -/

namespace Pattern

/-- The sections after the first, as they are written. -/
def furtherTexts (P : Pattern) : List (List Char) :=
  P.negative.toList.map NumberSection.write ++
    (P.zero.toList.map NumberSection.write ++ P.text.toList.map Template.write)

def write (P : Pattern) : String :=
  String.ofList ([';'].intercalate (P.positive.write :: P.furtherTexts))

/-- The form of every pattern that is read. -/
structure WellFormed (P : Pattern) : Prop where
  sections : ∀ s ∈ P.numberSections, s.WellFormed
  text : ∀ template ∈ P.text, Segment.Normal template
  negative_of_zero : P.zero.isSome → P.negative.isSome
  zero_of_text : P.text.isSome → P.zero.isSome

/-- The pattern with what it is written as for its source and those of its sections. -/
def rewritten (P : Pattern) : Pattern where
  source := P.write
  positive := P.positive.rewritten
  negative := P.negative.map NumberSection.rewritten
  zero := P.zero.map NumberSection.rewritten
  text := P.text

theorem intercalate_semicolon (u : List Char) (others : List (List Char)) :
    [';'].intercalate (u :: others) = u ++ joined others [] := by
  induction others generalizing u with
  | nil => simp
  | cons v others ih =>
    rw [List.intercalate_cons_cons, ih, joined_cons, List.append_assoc, List.singleton_append]

theorem sections_write (h : P.WellFormed) :
    Sections P.write.toList P.positive.write P.furtherTexts [] where
  texts := by
    intro u hu
    simp only [furtherTexts, List.mem_cons, List.mem_append, List.mem_map] at hu
    rcases hu with rfl | ⟨s, hs, rfl⟩ | ⟨s, hs, rfl⟩ | ⟨template, -, rfl⟩
    · exact NumberSection.sectionText_write (h.sections _ List.mem_cons_self)
    · apply NumberSection.sectionText_write
      apply h.sections
      exact List.mem_cons_of_mem _ (List.mem_append_left _ hs)
    · apply NumberSection.sectionText_write
      apply h.sections
      exact List.mem_cons_of_mem _ (List.mem_append_right _ hs)
    · exact Template.sectionText_write template
  last _ _ := sectionEnd_nil
  stop := .inl rfl
  whole := by rw [write, String.toList_ofList, intercalate_semicolon]

theorem ofTexts_write (h : P.WellFormed) :
    ofTexts P.write P.positive.write P.furtherTexts = P.rewritten := by
  have read : ∀ s ∈ P.numberSections, NumberSection.ofText s.write = s.rewritten :=
    fun s hs => NumberSection.ofText_write (h.sections s hs)
  obtain ⟨-, text, negative_of_zero, zero_of_text⟩ := h
  obtain ⟨source, positive, negative, zero, template⟩ := P
  simp only [ofTexts, rewritten, furtherTexts]
  -- a section is missing only where all later ones are
  cases negative with
  | none =>
    cases zero with
    | some s => exact absurd (negative_of_zero rfl) (by simp)
    | none =>
      cases template with
      | some t => exact absurd (zero_of_text rfl) (by simp)
      | none => simp [read positive List.mem_cons_self]
  | some n =>
    cases zero with
    | none =>
      cases template with
      | some t => exact absurd (zero_of_text rfl) (by simp)
      | none => simp [read positive List.mem_cons_self, read n (by simp [numberSections])]
    | some z =>
      have first := read positive List.mem_cons_self
      have second := read n (by simp [numberSections])
      have third := read z (by simp [numberSections])
      cases template with
      | none => simp [first, second, third]
      | some t => simp [first, second, third, Template.ofText_write (text t rfl)]

/-- Reading gives back what was written, with the sources filled in. -/
theorem parse_write (h : P.WellFormed) (ne : P.write ≠ "") : parse P.write = .ok P.rewritten := by
  have few : P.furtherTexts.length ≤ 3 := by
    have short : ∀ {α : Type} (o : Option α), o.toList.length ≤ 1 := fun o => by cases o <;> simp
    have := short P.negative
    have := short P.zero
    have := short P.text
    simp only [furtherTexts, List.length_append, List.length_map]
    omega
  rw [parse_eq ne (sections_write h), ofTexts_write h]
  simp only [ne_eq, not_true, if_false]
  rw [if_neg (by omega)]

theorem parse_write_of_quotes :
    let P : Pattern := {
      source := ""
      positive := ⟨"", [.text "'"], [.digit (.required '0'), .exponent ⟨true, 2⟩],
        [.text "x'", .mark .percent]⟩
      negative := some ⟨"", [.text "-;"], [.digit .optional], []⟩
      zero := none
      text := none }
    P.WellFormed ∧ P.write = "''0E+00'x'''%;'-;'#" ∧ P.write ≠ "" ∧
      parse P.write = .ok P.rewritten := by
  suffices form : WellFormed _ from ⟨form, by decide, by decide, parse_write form (by decide)⟩
  refine ⟨?_, by simp, by simp, by simp⟩
  have text : ∀ t, t ≠ "" → ∀ affix : Affix, (∀ next ∈ affix.head?, next.isText = false) →
      Segment.Normal affix → Segment.Normal (.text t :: affix) :=
    fun t ht affix next h => Segment.normal_text_cons.mpr ⟨ht, next, h⟩
  have alone : ∀ t, t ≠ "" → Segment.Normal ([.text t] : Affix) :=
    fun t ht => text t ht [] (by simp) Segment.normal_nil
  have percent : Segment.Normal [.mark ScaleMark.percent] :=
    Segment.normal_mark_cons.mpr Segment.normal_nil
  have single : ∀ d : Digit, Core.RunToken (.digit d) → Core.MantissaForm [.digit d] :=
    fun d hd => .integer fun t ht => by rwa [List.mem_singleton.mp ht]
  simp only [numberSections, List.mem_cons, Option.toList_some, Option.toList_none, List.append_nil,
    List.not_mem_nil, or_false]
  rintro s (rfl | rfl)
  · refine ⟨alone _ (by decide), .exponent (single (.required '0') rfl) (by simp) _, ?_, by simp⟩
    exact text _ (by decide) _ (by simp [Segment.isText]) percent
  · exact ⟨alone _ (by decide), .mantissa (single .optional trivial), Segment.normal_nil, by simp⟩

end Pattern

end DecimalPattern
