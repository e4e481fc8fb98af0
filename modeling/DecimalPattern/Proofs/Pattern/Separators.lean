import DecimalPattern.Proofs.Pattern.CoreRule
import DecimalPattern.Proofs.Pattern.Section

/-! # Cores without their separators

The text of a core without its commas is the text of the tokens without the separators, wherever
the core stands: taking commas out neither moves its end nor changes the affixes around it.
-/

namespace DecimalPattern

variable {c a b u v cs : List Char} {ts : List Token} {core : Core}

/-- A text without its commas. -/
def withoutCommas (cs : List Char) : List Char := cs.filter (· != ',')

/-- Tokens without the separators among them. -/
def Core.ungrouped (ts : Core) : Core := ts.filter fun t => !t.isGrouping

theorem withoutCommas_append (u v : List Char) :
    withoutCommas (u ++ v) = withoutCommas u ++ withoutCommas v := List.filter_append ..

theorem Core.ungrouped_append (ts us : List Token) :
    ungrouped (ts ++ us) = ungrouped ts ++ ungrouped us := List.filter_append ..

theorem withoutCommas_eq_self (h : ',' ∉ cs) : withoutCommas cs = cs :=
  List.filter_eq_self.mpr fun _ hx => bne_iff_ne.mpr fun eq => h (eq ▸ hx)

/-! ## Texts -/

theorem forall₂_withoutCommas (h : List.Forall₂ RunChar cs ts) :
    List.Forall₂ RunChar (withoutCommas cs) (Core.ungrouped ts) := by
  induction h with
  | nil => exact .nil
  | @cons x t cs ts head _ ih =>
    rw [withoutCommas, Core.ungrouped, List.filter_cons, List.filter_cons, head.isGrouping_eq, bne]
    split_ifs
    · exact .cons head ih
    · exact ih

theorem MantissaText.ungrouped (h : MantissaText cs ts) :
    MantissaText (withoutCommas cs) (Core.ungrouped ts) := by
  cases h with
  | integer h => exact .integer (forall₂_withoutCommas h)
  | fraction h h' =>
    rw [withoutCommas_append, Core.ungrouped_append]
    exact .fraction (forall₂_withoutCommas h) (forall₂_withoutCommas h')

theorem ExponentText.ungrouped_eq {es : List Char} {e : Exponent} (h : ExponentText es e) :
    withoutCommas es = es := by
  apply withoutCommas_eq_self
  intro mem
  rcases h.mem ',' mem with comma | comma | comma <;> exact absurd comma (by decide)

theorem CoreText.ungrouped (h : CoreText c core) (ne : withoutCommas (mantissaText c) ≠ []) :
    CoreText (withoutCommas c) (Core.ungrouped core) := by
  cases h with
  | mantissa h => exact .mantissa h.ungrouped
  | exponent h _ h' =>
    rw [h.mantissaText_append h'.head?] at ne
    rw [withoutCommas_append, Core.ungrouped_append, h'.ungrouped_eq]
    exact .exponent h.ungrouped ne h'

/-! ## Reading -/

namespace Core

theorem readMantissa_of_run (h : List.Forall₂ RunChar cs ts) (rest : List Char) :
    readMantissa (cs ++ rest) = (ts ++ (readMantissa rest).1, (readMantissa rest).2) := by
  have run := @readRun_of_forall₂ cs rest ts h
  by_cases point : (readRun rest).2.head? = some '.'
  · obtain ⟨left, eq⟩ := List.head?_eq_some_iff.mp point
    rw [eq] at run
    rw [readMantissa_of_point run, readMantissa_of_point (Prod.ext rfl eq), List.append_assoc]
  · rw [readMantissa_of_stop point, readMantissa_of_stop, run]
    rwa [run]

theorem readMantissa_of_runs {ds : List Char} {us : List Token} (h : List.Forall₂ RunChar cs ts)
    (h' : List.Forall₂ RunChar ds us) (rest : List Char) :
    readMantissa (cs ++ '.' :: ds ++ rest) =
      (ts ++ .point :: us ++ (readRun rest).1, (readRun rest).2) := by
  rw [readMantissa_of_point (readRun_of_point h), readRun_of_forall₂ h', List.append_assoc,
    List.cons_append]

/-- Reading goes on in the same way after a mantissa with separators and one without. -/
theorem exists_readMantissa_append (h : MantissaText cs ts) (rest : List Char) :
    ∃ more left, readMantissa (cs ++ rest) = (ts ++ more, left) ∧
      readMantissa (withoutCommas cs ++ rest) = (ungrouped ts ++ more, left) := by
  cases h with
  | integer h =>
    exact ⟨_, _, readMantissa_of_run h rest, readMantissa_of_run (forall₂_withoutCommas h) rest⟩
  | fraction h h' =>
    rw [withoutCommas_append, ungrouped_append]
    exact ⟨_, _, readMantissa_of_runs h h' rest,
      readMantissa_of_runs (forall₂_withoutCommas h) (forall₂_withoutCommas h') rest⟩

/-- A core ends where it does also without its separators. -/
theorem read_ungrouped (text : CoreText c core) (ne : withoutCommas (mantissaText c) ≠ [])
    (whole : read (c ++ b) = (core, b)) :
    read (withoutCommas c ++ b) = (ungrouped core, b) := by
  cases text with
  | mantissa h =>
    obtain ⟨more, left, eq, eq'⟩ := exists_readMantissa_append h b
    obtain ⟨e, rest, -, -, found⟩ | ⟨stop, found⟩ := read_cases (c ++ b)
    · -- The tokens of a mantissa have no exponent.
      have tokens := congrArg Prod.fst (whole.symm.trans found)
      have none := h.exponent?_eq_none
      rw [show core = _ from tokens, exponent?_append_exponent] at none
      contradiction
    · rw [whole, eq] at found
      obtain ⟨tokens, rfl⟩ := Prod.mk.inj found
      obtain rfl : more = [] := by simpa using tokens.symm
      rw [List.append_nil] at eq eq'
      apply read_of_mantissa eq'
      rw [eq] at stop
      exact stop.imp_left fun empty => by rw [show core = [] from empty]; rfl
  | @exponent cs es ts e h _ h' =>
    rw [h.mantissaText_append h'.head?] at ne
    obtain ⟨e', rest, found, -⟩ := @length_readExponent?_le es b e h'
    have mantissa : readMantissa (cs ++ (es ++ b)) = (ts, es ++ b) :=
      readMantissa_of_text h (head?_exponentText h')
    have mantissa' : readMantissa (withoutCommas cs ++ (es ++ b)) = (ungrouped ts, es ++ b) :=
      readMantissa_of_text h.ungrouped (head?_exponentText h')
    have filled := h.ungrouped.ne_nil_iff.mpr ne
    have full : ts ≠ [] := fun empty => filled (by rw [empty]; rfl)
    rw [List.append_assoc, read_of_exponent mantissa full found] at whole
    rw [withoutCommas_append, ungrouped_append, h'.ungrouped_eq, List.append_assoc,
      read_of_exponent mantissa' filled found]
    obtain ⟨tokens, rfl⟩ := Prod.mk.inj whole
    rw [List.append_cancel_left tokens]
    rfl

end Core

/-! ## Parts -/

theorem takeWhile_withoutCommas {x : Char} (hx : x ≠ ',') (cs : List Char) :
    (withoutCommas cs).takeWhile (· != x) = withoutCommas (cs.takeWhile (· != x)) := by
  induction cs with
  | nil => rfl
  | cons y cs ih =>
    by_cases comma : y = ','
    · subst comma
      simpa [withoutCommas, hx.symm] using ih
    · by_cases eq : y = x
      · simp [withoutCommas, eq, hx]
      · simpa [withoutCommas, comma, eq] using ih

theorem dropWhile_withoutCommas {x : Char} (hx : x ≠ ',') (cs : List Char) :
    (withoutCommas cs).dropWhile (· != x) = withoutCommas (cs.dropWhile (· != x)) := by
  have parts := congrArg withoutCommas (@List.takeWhile_append_dropWhile _ (· != x) cs)
  rw [withoutCommas_append, ← takeWhile_withoutCommas hx] at parts
  have parts' := @List.takeWhile_append_dropWhile _ (· != x) (withoutCommas cs)
  exact List.append_cancel_left (parts'.trans parts.symm)

theorem mantissaText_withoutCommas (c : List Char) :
    mantissaText (withoutCommas c) = withoutCommas (mantissaText c) :=
  takeWhile_withoutCommas (by decide) c

theorem integerText_withoutCommas (c : List Char) :
    integerText (withoutCommas c) = withoutCommas (integerText c) := by
  rw [integerText, mantissaText_withoutCommas, takeWhile_withoutCommas (by decide)]
  rfl

theorem fractionText_withoutCommas (c : List Char) :
    fractionText (withoutCommas c) = withoutCommas (fractionText c) := by
  rw [fractionText, mantissaText_withoutCommas, dropWhile_withoutCommas (by decide), fractionText]
  cases eq : (mantissaText c).dropWhile (· != '.') with
  | nil => rfl
  | cons x rest =>
    have point := List.head?_dropWhile_not (· != '.') (mantissaText c)
    obtain rfl : x = '.' := by simpa [eq] using point
    rfl

theorem mem_withoutCommas_iff {x : Char} (hx : x ≠ ',') : x ∈ withoutCommas cs ↔ x ∈ cs := by
  simp [withoutCommas, hx]

theorem run_unique {us : List Token} (h : List.Forall₂ RunChar cs ts)
    (h' : List.Forall₂ RunChar cs us) : ts = us := by
  refine Relator.RightUnique.forall₂ (fun x t u ht hu => ?_) h h'
  exact Option.some.inj ((runChar_iff.mp ht).symm.trans (runChar_iff.mp hu))

theorem withoutCommas_ne_nil (ne : withoutCommas (mantissaText c) ≠ []) : withoutCommas c ≠ [] := by
  rw [← List.takeWhile_append_dropWhile (p := (· != 'E')) (l := c), withoutCommas_append]
  exact List.append_ne_nil_of_left_ne_nil ne _

theorem ne_nil_of_withoutCommas (ne : withoutCommas c ≠ []) : c ≠ [] := by
  rintro rfl
  exact ne rfl

namespace CoreText

theorem exponent?_ungrouped (h : CoreText c core) :
    (Core.ungrouped core).exponent? = core.exponent? := by
  cases h with
  | mantissa h => rw [h.exponent?_eq_none, h.ungrouped.exponent?_eq_none]
  | @exponent _ _ ts e =>
    rw [Core.ungrouped_append, Core.exponent?_append_exponent]
    exact Core.exponent?_append_exponent _ e

end CoreText

/-- What is read of a core without the separators of another one. -/
structure Core.Ungroups (core' core : Core) : Prop where
  isEmpty : core'.isEmpty = core.isEmpty
  integer : core'.parts.integer = ungrouped core.parts.integer
  fraction : core'.parts.fraction = ungrouped core.parts.fraction
  exponent? : core'.parts.exponent? = core.parts.exponent?
  hasSignificance : core'.parts.hasSignificance = core.parts.hasSignificance

theorem CoreText.ungroups (h : CoreText c core) (ne : withoutCommas (mantissaText c) ≠ []) :
    (Core.ungrouped core).Ungroups core where
  isEmpty := by
    have filled := withoutCommas_ne_nil ne
    have bare := (h.ungrouped ne).ne_nil filled
    have grouped := h.ne_nil (ne_nil_of_withoutCommas filled)
    rw [List.isEmpty_eq_false_iff.mpr grouped, List.isEmpty_eq_false_iff.mpr bare]
  integer := by
    have run := (h.ungrouped ne).run_integer
    rw [integerText_withoutCommas] at run
    exact run_unique run (forall₂_withoutCommas h.run_integer)
  fraction := by
    have run := (h.ungrouped ne).run_fraction
    rw [fractionText_withoutCommas] at run
    exact run_unique run (forall₂_withoutCommas h.run_fraction)
  exponent? := h.exponent?_ungrouped
  hasSignificance := by
    rw [Bool.eq_iff_iff, (h.ungrouped ne).hasSignificance_iff, h.hasSignificance_iff,
      mem_withoutCommas_iff (by decide)]

/-- A core without its separators breaks no rule that the core keeps. -/
theorem CoreRule.BrokenIn.of_ungrouped {rule : CoreRule} (h : rule.BrokenIn (withoutCommas c)) :
    rule.BrokenIn c := by
  have subset (x : Char) (hx : x ∈ withoutCommas c) : x ∈ c := List.mem_of_mem_filter hx
  cases rule with
  | integerOrder =>
    obtain ⟨d, digit, sub⟩ := h
    rw [integerText_withoutCommas] at sub
    exact ⟨d, digit, sub.trans List.filter_sublist⟩
  | fractionOrder =>
    obtain ⟨d, digit, sub⟩ := h
    rw [fractionText_withoutCommas] at sub
    exact ⟨d, digit, sub.trans List.filter_sublist⟩
  | exponentWithoutGrouping => exact h.imp (subset _) (subset _)
  | significanceWithoutPoint => exact h.imp (subset _) (subset _)
  | significanceWithoutZero =>
    obtain ⟨significant, zero⟩ := h
    rw [mantissaText_withoutCommas] at zero
    exact ⟨subset _ significant, List.mem_of_mem_filter zero⟩

/-! ## Sections -/

theorem CoreText.startsCore_of_head? (h : CoreText c core) : ∀ x ∈ c.head?, startsCore x := by
  cases h with
  | mantissa h => exact fun x hx => h.startsCore x (List.mem_of_head? hx)
  | exponent h ne =>
    intro x hx
    rw [List.head?_append_of_ne_nil _ ne] at hx
    exact h.startsCore x (List.mem_of_head? hx)

theorem CoreText.sectionText (h : CoreText c core) : SectionText c where
  even := by rw [h.count_quote]; exact Even.zero
  bare hs := by
    obtain ⟨before, after, rfl, -⟩ := mem_unquoted.mp hs
    exact h.not_mem (by decide) (List.mem_append_right before List.mem_cons_self)

theorem SectionText.append (h : SectionText u) (h' : SectionText v) : SectionText (u ++ v) where
  even := by
    rw [List.count_append]
    exact h.even.add h'.even
  bare hs := by
    rw [unquoted_append h.closed] at hs
    exact (List.mem_append.mp hs).elim h.bare h'.bare

namespace SectionParts

/-- The commas of a core may be taken out where it has a digit. -/
theorem ungrouped (p : SectionParts u a c b core) (ne : withoutCommas (mantissaText c) ≠ []) :
    SectionParts (a ++ (withoutCommas c ++ b)) a (withoutCommas c) b (Core.ungrouped core) where
  whole := rfl
  bare := p.bare
  next x hx := by
    have ne' := withoutCommas_ne_nil ne
    rw [List.head?_append_of_ne_nil _ ne'] at hx
    obtain ⟨y, rest, rfl⟩ := List.exists_cons_of_ne_nil (ne_nil_of_withoutCommas ne')
    exact ⟨(p.next y rfl).1, (p.text.ungrouped ne).startsCore_of_head? x hx⟩
  text := p.text.ungrouped ne
  read := Core.read_ungrouped p.text ne p.read

theorem sectionText_ungrouped (p : SectionParts u a c b core) (h : SectionText u)
    (ne : withoutCommas (mantissaText c) ≠ []) : SectionText (a ++ (withoutCommas c ++ b)) := by
  have before : SectionText a := ⟨p.even_before h, p.semicolon_not_mem_before h⟩
  have after : SectionText b := ⟨p.even_after h, p.semicolon_not_mem_after h⟩
  exact before.append ((p.text.ungrouped ne).sectionText.append after)

end SectionParts

end DecimalPattern
