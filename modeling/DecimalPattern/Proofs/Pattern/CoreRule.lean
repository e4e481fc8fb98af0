import DecimalPattern.Pattern.CoreRule
import DecimalPattern.Proofs.Pattern.CoreText

/-! # Structural rules and the texts of cores

The rules can be told from the text of a core, cut before its exponent and at its first point. Two
of them forbid a character of one kind somewhere after one of another kind, the others forbid two
characters to occur together. A core is reported for the first rule that its text breaks.
-/

namespace DecimalPattern

variable {x : Char} {t : Token} {c m cs es : List Char} {ts : List Token} {e : Exponent}
  {core : Core}

/-! ## The parts of a text -/

/-- The text of a core up to its exponent. -/
def mantissaText (c : List Char) : List Char := c.takeWhile (· != 'E')

/-- The mantissa up to its first point. -/
def integerText (c : List Char) : List Char := (mantissaText c).takeWhile (· != '.')

/-- The mantissa after its first point. -/
def fractionText (c : List Char) : List Char := ((mantissaText c).dropWhile (· != '.')).tail

theorem RunChar.ne (h : RunChar x t) : x ≠ '.' ∧ t ≠ .point ∧ ∀ e, t ≠ .exponent e := by
  cases h with
  | required h =>
    refine ⟨?_, by simp, by simp⟩
    rintro rfl
    exact absurd h (by decide)
  | optional => simp
  | significant => simp
  | grouping => simp

theorem forall₂_ne (h : List.Forall₂ RunChar cs ts) :
    (∀ x ∈ cs, x ≠ '.') ∧ ∀ t ∈ ts, t ≠ .point ∧ ∀ e, t ≠ .exponent e := by
  induction h with
  | nil => simp
  | cons head _ ih =>
    obtain ⟨char, token⟩ := head.ne
    exact ⟨List.forall_mem_cons.mpr ⟨char, ih.1⟩, List.forall_mem_cons.mpr ⟨token, ih.2⟩⟩

theorem MantissaText.exponent?_eq_none (h : MantissaText cs ts) : Core.exponent? ts = none := by
  have tokens : ∀ t ∈ ts, ∀ e, t ≠ .exponent e := by
    cases h with
    | integer h => exact fun t ht => ((forall₂_ne h).2 t ht).2
    | fraction h h' =>
      intro t ht
      rcases List.mem_append.mp ht with ht | ht
      · exact ((forall₂_ne h).2 t ht).2
      · rcases List.mem_cons.mp ht with rfl | ht
        · simp
        · exact ((forall₂_ne h').2 t ht).2
  unfold Core.exponent?
  split
  next e last => exact absurd rfl (tokens _ (List.mem_of_getLast? last) e)
  next => rfl

theorem Core.exponent?_append_exponent (ts : List Token) (e : Exponent) :
    Core.exponent? (ts ++ [.exponent e]) = some e := by
  simp [Core.exponent?]

theorem MantissaText.mantissaText_append (h : MantissaText cs ts)
    (next : ∀ x ∈ es.head?, x = 'E') : mantissaText (cs ++ es) = cs := by
  have keep : ∀ x ∈ cs, (x != 'E') = true := by
    intro x hx
    rw [bne_iff_ne]
    rintro rfl
    exact absurd (h.startsCore 'E' hx) (by decide)
  rw [mantissaText, List.takeWhile_append_of_pos keep]
  cases es with
  | nil => simp
  | cons x es => simp [next x rfl]

theorem ExponentText.head? (h : ExponentText es e) : ∀ x ∈ es.head?, x = 'E' := by
  cases h <;> simp

theorem ExponentText.mem (h : ExponentText es e) : ∀ x ∈ es, x = 'E' ∨ x = '+' ∨ x.isDigit := by
  cases h with
  | bare h =>
    intro x hx
    rcases List.mem_cons.mp hx with rfl | hx
    · exact .inl rfl
    · exact .inr (.inr (h x hx))
  | plus h =>
    intro x hx
    rcases List.mem_cons.mp hx with rfl | hx
    · exact .inl rfl
    · rcases List.mem_cons.mp hx with rfl | hx
      · exact .inr (.inl rfl)
      · exact .inr (.inr (h x hx))

namespace CoreText

/-- The core of a text is its mantissa with an exponent or without one. -/
theorem split (h : CoreText c core) :
    MantissaText (mantissaText c) core.mantissa ∧
      (core.exponent? = none ∧ c = mantissaText c ∨
        ∃ es e, core.exponent? = some e ∧ ExponentText es e ∧ c = mantissaText c ++ es) := by
  cases h with
  | mantissa h =>
    have text : mantissaText c = c := by
      simpa using @MantissaText.mantissaText_append c [] core h (by simp)
    have none := h.exponent?_eq_none
    rw [text, Core.mantissa, none]
    exact ⟨h, .inl ⟨rfl, rfl⟩⟩
  | @exponent cs es ts e h ne h' =>
    rw [h.mantissaText_append h'.head?, Core.mantissa, Core.exponent?_append_exponent]
    exact ⟨by simpa using h, .inr ⟨es, e, rfl, h', rfl⟩⟩

theorem exponent?_isSome_iff (h : CoreText c core) : core.parts.exponent?.isSome ↔ 'E' ∈ c := by
  obtain ⟨mantissa, ⟨found, eq⟩ | ⟨es, e, found, text, eq⟩⟩ := h.split
  · have bare : 'E' ∉ c := by
      intro mem
      rw [eq] at mem
      exact absurd (mantissa.startsCore 'E' mem) (by decide)
    simp [Core.parts, found, bare]
  · have mem : 'E' ∈ c := by
      rw [eq]
      apply List.mem_append_right
      cases text <;> simp
    simp [Core.parts, found, mem]

/-- Only an exponent has other characters than the mantissa. -/
theorem mem_mantissaText_iff (h : CoreText c core) (hx : x ≠ 'E' ∧ x ≠ '+' ∧ x.isDigit = false) :
    x ∈ mantissaText c ↔ x ∈ c := by
  refine ⟨fun mem => List.takeWhile_subset _ mem, fun mem => ?_⟩
  obtain ⟨-, ⟨-, eq⟩ | ⟨es, e, -, text, eq⟩⟩ := h.split
  · rwa [← eq]
  · rw [eq] at mem
    refine (List.mem_append.mp mem).resolve_right fun mem => ?_
    rcases text.mem x mem with rfl | rfl | digit
    · exact hx.1 rfl
    · exact hx.2.1 rfl
    · exact Bool.false_ne_true (hx.2.2.symm.trans digit)

end CoreText

theorem mem_integerText_or_fractionText (hx : x ≠ '.') :
    x ∈ mantissaText c ↔ x ∈ integerText c ∨ x ∈ fractionText c := by
  have parts := @List.takeWhile_append_dropWhile _ (· != '.') (mantissaText c)
  rw [← parts, List.mem_append, integerText, fractionText]
  cases h : (mantissaText c).dropWhile (· != '.') with
  | nil => simp
  | cons y rest =>
    have point : y = '.' := by
      have := List.head?_dropWhile_not (· != '.') (mantissaText c)
      simpa [h] using this
    simp [point, hx]

/-! ## The runs of a core -/

namespace MantissaText

/-- A mantissa at its first point, on the side of the text and on that of the tokens. -/
theorem cut (h : MantissaText m ts) :
    List.Forall₂ RunChar (m.takeWhile (· != '.')) (ts.takeWhile (· != .point)) ∧
      List.Forall₂ RunChar (m.dropWhile (· != '.')).tail (ts.dropWhile (· != .point)).tail ∧
      ((ts.dropWhile (· != .point)).tail?.isSome ↔ '.' ∈ m) := by
  have chars : ∀ {cs : List Char} {ts : List Token}, List.Forall₂ RunChar cs ts →
      (∀ x ∈ cs, (x != '.') = true) ∧ ∀ t ∈ ts, (t != .point) = true := by
    intro cs ts h
    obtain ⟨chars, tokens⟩ := forall₂_ne h
    exact ⟨fun x hx => bne_iff_ne.mpr (chars x hx), fun t ht => bne_iff_ne.mpr (tokens t ht).1⟩
  cases h with
  | integer h =>
    obtain ⟨left, right⟩ := chars h
    have bare : '.' ∉ m := fun mem => absurd (left '.' mem) (by decide)
    rw [List.takeWhile_eq_self_iff.mpr left, List.takeWhile_eq_self_iff.mpr right,
      List.dropWhile_eq_nil_iff.mpr left, List.dropWhile_eq_nil_iff.mpr right]
    exact ⟨h, .nil, by simp [bare]⟩
  | fraction h h' =>
    obtain ⟨left, right⟩ := chars h
    rw [List.takeWhile_append_of_pos left, List.takeWhile_append_of_pos right,
      List.dropWhile_append_of_pos left, List.dropWhile_append_of_pos right]
    simpa using ⟨h, h'⟩

end MantissaText

namespace CoreText

theorem run_integer (h : CoreText c core) :
    List.Forall₂ RunChar (integerText c) core.parts.integer := h.split.1.cut.1

theorem run_fraction (h : CoreText c core) :
    List.Forall₂ RunChar (fractionText c) core.parts.fraction := by
  have run := h.split.1.cut.2.1
  have fraction : core.parts.fraction = (core.mantissa.dropWhile (· != .point)).tail := by
    simp only [Core.Parts.fraction, Core.parts]
    cases core.mantissa.dropWhile (· != .point) <;> rfl
  rwa [fraction]

theorem fraction?_isSome_iff (h : CoreText c core) : core.parts.fraction?.isSome ↔ '.' ∈ c := by
  rw [← h.mem_mantissaText_iff (by decide)]
  exact h.split.1.cut.2.2

end CoreText

/-! ## Classes of tokens and characters -/

namespace RunChar

theorem isRequired_eq (h : RunChar x t) : t.isRequired = x.isDigit := by
  cases h with
  | required h => exact h.symm
  | optional => rfl
  | significant => rfl
  | grouping => rfl

theorem beq_eq_false_of_isDigit {y : Char} (h : x.isDigit) (hy : y.isDigit = false) :
    (x == y) = false := by
  refine beq_false_of_ne ?_
  rintro rfl
  exact Bool.false_ne_true (hy.symm.trans h)

theorem isOptional_eq (h : RunChar x t) : t.isOptional = (x == '#') := by
  cases h with
  | required h => exact (beq_eq_false_of_isDigit h (by decide)).symm
  | optional => rfl
  | significant => rfl
  | grouping => rfl

theorem isSignificant_eq (h : RunChar x t) : t.isSignificant = (x == '@') := by
  cases h with
  | required h => exact (beq_eq_false_of_isDigit h (by decide)).symm
  | optional => rfl
  | significant => rfl
  | grouping => rfl

theorem isGrouping_eq (h : RunChar x t) : t.isGrouping = (x == ',') := by
  cases h with
  | required h => exact (beq_eq_false_of_isDigit h (by decide)).symm
  | optional => rfl
  | significant => rfl
  | grouping => rfl

theorem beq_zero_eq (h : RunChar x t) : (t == .digit (.required '0')) = (x == '0') := by
  cases h with
  | required => by_cases zero : x = '0' <;> simp [zero]
  | optional => rfl
  | significant => rfl
  | grouping => rfl

end RunChar

section Classes

variable {f g : Token → Bool} {p q : Char → Bool}

theorem any_of_run (h : List.Forall₂ RunChar cs ts) (eq : ∀ x t, RunChar x t → f t = p x) :
    ts.any f = cs.any p := by
  induction h with
  | nil => rfl
  | cons head _ ih => rw [List.any_cons, List.any_cons, eq _ _ head, ih]

theorem CoreRule.follows_cons (f g : Token → Bool) (t : Token) (ts : List Token) :
    follows f g (t :: ts) = if f t then (t :: ts).any g else follows f g ts := by
  cases h : f t <;> simp [follows, h]

/-- A token stands after another where its character stands after that of the other. -/
theorem follows_of_run (h : List.Forall₂ RunChar cs ts) (first : ∀ x t, RunChar x t → f t = p x)
    (second : ∀ x t, RunChar x t → g t = q x) (disjoint : ∀ x, p x → q x = false) :
    CoreRule.follows f g ts ↔ ∃ x y, p x ∧ q y ∧ [x, y].Sublist cs := by
  induction h with
  | nil => simp [CoreRule.follows]
  | @cons x t cs ts head rest ih =>
    rw [CoreRule.follows_cons, first x t head]
    cases hx : p x with
    | true =>
      have after : (t :: ts).any g = cs.any q := by
        rw [List.any_cons, second x t head, disjoint x hx, Bool.false_or, any_of_run rest second]
      rw [if_pos rfl, after, List.any_eq_true]
      constructor
      · rintro ⟨y, mem, hy⟩
        exact ⟨x, y, hx, hy, (List.singleton_sublist.mpr mem).cons_cons x⟩
      · rintro ⟨z, y, -, hy, sub⟩
        have mem : y ∈ x :: cs := sub.subset (by simp)
        rcases List.mem_cons.mp mem with rfl | mem
        · exact absurd (disjoint y hx) (by simp [hy])
        · exact ⟨y, mem, hy⟩
    | false =>
      rw [if_neg Bool.false_ne_true, ih]
      constructor
      · rintro ⟨z, y, hz, hy, sub⟩
        exact ⟨z, y, hz, hy, sub.cons x⟩
      · rintro ⟨z, y, hz, hy, sub⟩
        refine ⟨z, y, hz, hy, ?_⟩
        rcases List.sublist_cons_iff.mp sub with sub | ⟨r, eq, -⟩
        · exact sub
        · obtain rfl : z = x := (List.cons.inj eq).1
          exact absurd hx (by simp [hz])

end Classes

/-! ## The rules -/

namespace CoreRule

/-- The place of a rule in the order in which the rules are checked. -/
def number : CoreRule → ℕ
  | integerOrder => 1
  | fractionOrder => 2
  | exponentWithoutGrouping => 3
  | significanceWithoutPoint => 4
  | significanceWithoutZero => 5

/-- What the text of a core must not have. A digit of the exponent is no literal digit. -/
def BrokenIn (c : List Char) : CoreRule → Prop
  | integerOrder => ∃ d, d.isDigit ∧ [d, '#'].Sublist (integerText c)
  | fractionOrder => ∃ d, d.isDigit ∧ ['#', d].Sublist (fractionText c)
  | exponentWithoutGrouping => 'E' ∈ c ∧ ',' ∈ c
  | significanceWithoutPoint => '@' ∈ c ∧ '.' ∈ c
  | significanceWithoutZero => '@' ∈ c ∧ '0' ∈ mantissaText c

end CoreRule

namespace CoreText

theorem any_parts_iff (h : CoreText c core) {f : Token → Bool}
    (eq : ∀ y t, RunChar y t → f t = (y == x)) (hx : x ≠ '.') :
    (core.parts.integer ++ core.parts.fraction).any f ↔ x ∈ mantissaText c := by
  rw [List.any_append, any_of_run h.run_integer eq, any_of_run h.run_fraction eq,
    mem_integerText_or_fractionText hx]
  simp

theorem hasGrouping_iff (h : CoreText c core) : core.parts.hasGrouping ↔ ',' ∈ c := by
  rw [← h.mem_mantissaText_iff (by decide)]
  exact h.any_parts_iff (fun _ _ head => head.isGrouping_eq) (by decide)

theorem hasSignificance_iff (h : CoreText c core) : core.parts.hasSignificance ↔ '@' ∈ c := by
  rw [← h.mem_mantissaText_iff (by decide)]
  exact h.any_parts_iff (fun _ _ head => head.isSignificant_eq) (by decide)

/-- Zeros are looked for before the point only, after which there is nothing where `@` may stand. -/
theorem integer_any_zero_iff (h : CoreText c core) (point : '.' ∉ c) :
    core.parts.integer.any (· == .digit (.required '0')) ↔ '0' ∈ mantissaText c := by
  have fraction : core.parts.fraction = [] := by
    have none : core.parts.fraction? = none := by simpa using mt h.fraction?_isSome_iff.mp point
    rw [Core.Parts.fraction, none]
    rfl
  rw [← h.any_parts_iff (fun _ _ head => head.beq_zero_eq) (by decide), fraction, List.append_nil]

theorem brokenBy_iff (h : CoreText c core) (rule : CoreRule)
    (earlier : rule = .significanceWithoutZero → ¬ CoreRule.BrokenIn c .significanceWithoutPoint) :
    CoreRule.brokenBy core.parts rule ↔ rule.BrokenIn c := by
  cases rule with
  | integerOrder =>
    have order := follows_of_run h.run_integer (fun _ _ head => head.isRequired_eq)
      (fun _ _ head => head.isOptional_eq)
      fun _ digit => RunChar.beq_eq_false_of_isDigit digit (by decide)
    simpa [CoreRule.brokenBy, CoreRule.BrokenIn] using order
  | fractionOrder =>
    have order := follows_of_run h.run_fraction (fun _ _ head => head.isOptional_eq)
      (fun _ _ head => head.isRequired_eq) (by simp)
    simpa [CoreRule.brokenBy, CoreRule.BrokenIn] using order
  | exponentWithoutGrouping =>
    rw [CoreRule.brokenBy, Bool.and_eq_true, h.exponent?_isSome_iff, h.hasGrouping_iff]
    rfl
  | significanceWithoutPoint =>
    rw [CoreRule.brokenBy, Bool.and_eq_true, h.hasSignificance_iff, h.fraction?_isSome_iff]
    rfl
  | significanceWithoutZero =>
    rw [CoreRule.brokenBy, Bool.and_eq_true, h.hasSignificance_iff]
    refine and_congr_right fun significant => ?_
    exact h.integer_any_zero_iff fun point => earlier rfl ⟨significant, point⟩

end CoreText

namespace CoreRule

theorem mem_all (rule : CoreRule) : rule ∈ all := by cases rule <;> decide

theorem find?_all_eq_some_iff (p : CoreRule → Bool) (rule : CoreRule) :
    all.find? p = some rule ↔ p rule ∧ ∀ r : CoreRule, r.number < rule.number → p r = false := by
  have sorted : all.Pairwise (·.number < ·.number) := by decide
  rw [List.find?_eq_some_iff_append]
  constructor
  · rintro ⟨holds, before, after, eq, none⟩
    refine ⟨holds, fun r lower => ?_⟩
    rw [eq, List.pairwise_append, List.pairwise_cons] at sorted
    have mem := mem_all r
    rw [eq, List.mem_append, List.mem_cons] at mem
    rcases mem with mem | rfl | mem
    · simpa using none r mem
    · omega
    · have := sorted.2.1.1 r mem
      omega
  · rintro ⟨holds, lower⟩
    obtain ⟨before, after, eq⟩ := List.append_of_mem (mem_all rule)
    refine ⟨holds, before, after, eq, fun r mem => ?_⟩
    rw [eq, List.pairwise_append] at sorted
    simpa using lower r (sorted.2.2 r mem rule List.mem_cons_self)

/-- The rule that is reported is the first that the text breaks. -/
theorem firstBroken?_eq_some_iff (h : CoreText c core) {rule : CoreRule} :
    firstBroken? core = some rule ↔
      rule.BrokenIn c ∧ ∀ r : CoreRule, r.number < rule.number → ¬ r.BrokenIn c := by
  have last : ∀ r : CoreRule, r.number < rule.number → r ≠ significanceWithoutZero := by
    rintro r lower rfl
    cases rule <;> simp [number] at lower
  have before : ∀ r : CoreRule, r.number < rule.number →
      (brokenBy core.parts r = false ↔ ¬ r.BrokenIn c) := by
    intro r lower
    rw [← h.brokenBy_iff r fun eq => absurd eq (last r lower), Bool.not_eq_true]
  rw [firstBroken?, find?_all_eq_some_iff, forall₂_congr before]
  refine and_congr_left fun lower => h.brokenBy_iff rule ?_
  rintro rfl
  exact lower significanceWithoutPoint (by decide)

theorem firstBroken?_eq_none_iff (h : CoreText c core) :
    firstBroken? core = none ↔ ∀ rule : CoreRule, ¬ rule.BrokenIn c := by
  have broken : ∀ rule : CoreRule, firstBroken? core = some rule → rule.BrokenIn c :=
    fun rule found => (firstBroken?_eq_some_iff h).mp found |>.1
  constructor
  · intro none rule
    induction k : rule.number using Nat.strong_induction_on generalizing rule with
    | _ k ih =>
      intro breaks
      have found := (firstBroken?_eq_some_iff h).mpr
        ⟨breaks, fun r lower => ih r.number (k ▸ lower) r rfl⟩
      simp [none] at found
  · intro keeps
    exact Option.eq_none_iff_forall_ne_some.mpr fun rule found => keeps rule (broken rule found)

end CoreRule

end DecimalPattern
