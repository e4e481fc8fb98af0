import DecimalPattern.Pattern.Core
import Mathlib.Data.List.Forall2
import Mathlib.Data.List.TakeWhile

/-! # The texts of cores

The grammar of cores, with the tokens that each text stands for. Reading takes the longest text of
the grammar at the start of its input, and what follows changes nothing when it starts with a
character that no core goes on with.
-/

namespace DecimalPattern

variable {c : Char} {t : Token} {cs ds es rest v : List Char} {ts us : List Token} {e : Exponent}
  {core : Core}

/-- A character of a run, with its token. -/
inductive RunChar : Char → Token → Prop
  | required {c : Char} (h : c.isDigit) : RunChar c (.digit (.required c))
  | optional : RunChar '#' (.digit .optional)
  | significant : RunChar '@' (.digit .significant)
  | grouping : RunChar ',' .grouping

/-- A run, or two with a point between them. -/
inductive MantissaText : List Char → List Token → Prop
  | integer {cs : List Char} {ts : List Token} (h : List.Forall₂ RunChar cs ts) :
      MantissaText cs ts
  | fraction {cs ds : List Char} {ts us : List Token} (h : List.Forall₂ RunChar cs ts)
      (h' : List.Forall₂ RunChar ds us) : MantissaText (cs ++ '.' :: ds) (ts ++ .point :: us)

inductive ExponentText : List Char → Exponent → Prop
  | bare {ds : List Char} (h : ∀ d ∈ ds, d.isDigit) : ExponentText ('E' :: ds) ⟨false, ds.length⟩
  | plus {ds : List Char} (h : ∀ d ∈ ds, d.isDigit) :
      ExponentText ('E' :: '+' :: ds) ⟨true, ds.length⟩

/-- A mantissa that may be empty, or one that is not with an exponent after it. -/
inductive CoreText : List Char → Core → Prop
  | mantissa {cs : List Char} {ts : List Token} (h : MantissaText cs ts) : CoreText cs ts
  | exponent {cs es : List Char} {ts : List Token} {e : Exponent} (h : MantissaText cs ts)
      (ne : cs ≠ []) (h' : ExponentText es e) : CoreText (cs ++ es) (ts ++ [.exponent e])

theorem runChar_iff : RunChar c t ↔ Token.ofChar? c = some t := by
  constructor
  · rintro (h | _ | _ | _)
    · have ne : c ≠ '#' ∧ c ≠ '@' ∧ c ≠ ',' := by
        refine ⟨?_, ?_, ?_⟩ <;> rintro rfl <;> exact absurd h (by decide)
      simp [Token.ofChar?, ne, h]
    · rfl
    · rfl
    · rfl
  · intro h
    unfold Token.ofChar? at h
    split_ifs at h with h₁ h₂ h₃ h₄
    · obtain rfl := Option.some.inj h
      exact h₁ ▸ .optional
    · obtain rfl := Option.some.inj h
      exact h₂ ▸ .significant
    · obtain rfl := Option.some.inj h
      exact h₃ ▸ .grouping
    · obtain rfl := Option.some.inj h
      exact .required h₄

theorem ofChar?_eq_none_of_startsCore (h : startsCore c = false) : Token.ofChar? c = none := by
  simp only [startsCore, Bool.or_eq_false_iff] at h
  simpa using h.2

theorem MantissaText.ne_nil_iff (h : MantissaText cs ts) : ts ≠ [] ↔ cs ≠ [] := by
  cases h with
  | integer h => cases h <;> simp
  | fraction => simp

namespace Core

/-- No core goes on with the first character of the text. -/
def Ends (rest : List Char) : Prop := ∀ c ∈ rest.head?, startsCore c = false ∧ c ≠ 'E' ∧ c ≠ '+'

/-! ## Runs -/

theorem readRun_of_stop (h : ∀ c ∈ rest.head?, Token.ofChar? c = none) :
    readRun rest = ([], rest) := by
  cases rest with
  | nil => rfl
  | cons c rest => simp [readRun, h c rfl]

theorem readRun_of_forall₂ (h : List.Forall₂ RunChar cs ts) :
    readRun (cs ++ rest) = (ts ++ (readRun rest).1, (readRun rest).2) := by
  induction h with
  | nil => rfl
  | cons hc _ ih => simp [readRun, runChar_iff.mp hc, ih]

theorem readRun_sound (cs : List Char) :
    ∃ run, cs = run ++ (readRun cs).2 ∧ List.Forall₂ RunChar run (readRun cs).1 := by
  fun_induction readRun cs with
  | case1 => exact ⟨[], rfl, .nil⟩
  | case2 c cs t ht ts rest eq ih =>
    obtain ⟨run, split, forall₂⟩ := ih
    rw [eq] at split forall₂
    exact ⟨c :: run, by rw [List.cons_append, ← split], .cons (runChar_iff.mpr ht) forall₂⟩
  | case3 c cs ht => exact ⟨[], rfl, .nil⟩

theorem length_readRun_le (cs : List Char) : (readRun cs).2.length ≤ cs.length := by
  obtain ⟨run, split, -⟩ := readRun_sound cs
  have := congrArg List.length split
  rw [List.length_append] at this
  omega

theorem readRun_of_point (h : List.Forall₂ RunChar cs ts) :
    readRun (cs ++ '.' :: ds ++ rest) = (ts, '.' :: (ds ++ rest)) := by
  rw [List.append_assoc, List.cons_append, readRun_of_forall₂ h, readRun_of_stop (by simp; decide),
    List.append_nil]

theorem readRun_append (h : ∀ c ∈ rest.head?, Token.ofChar? c = none) :
    readRun (v ++ rest) = ((readRun v).1, (readRun v).2 ++ rest) := by
  induction v with
  | nil => exact readRun_of_stop h
  | cons c v ih =>
    rw [List.cons_append, readRun, readRun]
    cases Token.ofChar? c with
    | none => rfl
    | some t => simp [ih]

/-! ## Mantissas -/

theorem readMantissa_of_point (h : readRun cs = (ts, '.' :: rest)) :
    readMantissa cs = (ts ++ .point :: (readRun rest).1, (readRun rest).2) := by
  simp [readMantissa, h]

theorem readMantissa_of_stop (h : (readRun cs).2.head? ≠ some '.') :
    readMantissa cs = readRun cs := by
  unfold readMantissa
  split
  next rest eq => simp [eq] at h
  next => rfl

theorem readMantissa_of_text (h : MantissaText cs ts)
    (stop : ∀ c ∈ rest.head?, startsCore c = false) : readMantissa (cs ++ rest) = (ts, rest) := by
  have stop' : ∀ c ∈ rest.head?, Token.ofChar? c = none :=
    fun c hc => ofChar?_eq_none_of_startsCore (stop c hc)
  cases h with
  | integer h =>
    have run : readRun (cs ++ rest) = (ts, rest) := by
      rw [readRun_of_forall₂ h, readRun_of_stop stop', List.append_nil]
    rw [readMantissa_of_stop, run]
    rw [run]
    exact fun eq => absurd (stop '.' eq) (by decide)
  | @fraction cs ds ts us h h' =>
    rw [readMantissa_of_point (readRun_of_point h), readRun_of_forall₂ h', readRun_of_stop stop',
      List.append_nil]

theorem readMantissa_sound (cs : List Char) :
    ∃ text, cs = text ++ (readMantissa cs).2 ∧ MantissaText text (readMantissa cs).1 := by
  obtain ⟨run, split, forall₂⟩ := readRun_sound cs
  by_cases point : (readRun cs).2.head? = some '.'
  · obtain ⟨rest, eq⟩ := List.head?_eq_some_iff.mp point
    obtain ⟨run', split', forall₂'⟩ := readRun_sound rest
    rw [readMantissa_of_point (Prod.ext rfl eq)]
    exact ⟨run ++ '.' :: run', by rw [List.append_assoc, List.cons_append, ← split', ← eq, ← split],
      .fraction forall₂ forall₂'⟩
  · rw [readMantissa_of_stop point]
    exact ⟨run, split, .integer forall₂⟩

theorem length_readMantissa_le (h : MantissaText cs ts) :
    (readMantissa (cs ++ rest)).2.length ≤ rest.length := by
  cases h with
  | integer h =>
    have run := @readRun_of_forall₂ cs rest ts h
    have := length_readRun_le rest
    by_cases point : (readRun (cs ++ rest)).2.head? = some '.'
    · obtain ⟨rest', eq⟩ := List.head?_eq_some_iff.mp point
      have := length_readRun_le rest'
      have inner : (readRun rest).2.length = rest'.length + 1 := by
        simpa [run] using congrArg List.length eq
      rw [readMantissa_of_point (Prod.ext rfl eq)]
      show (readRun rest').2.length ≤ rest.length
      omega
    · rwa [readMantissa_of_stop point, run]
  | @fraction cs ds ts us h h' =>
    rw [readMantissa_of_point (readRun_of_point h), readRun_of_forall₂ h']
    exact length_readRun_le rest

theorem readMantissa_append (stop : ∀ c ∈ rest.head?, startsCore c = false) :
    readMantissa (v ++ rest) = ((readMantissa v).1, (readMantissa v).2 ++ rest) := by
  have stop' : ∀ c ∈ rest.head?, Token.ofChar? c = none :=
    fun c hc => ofChar?_eq_none_of_startsCore (stop c hc)
  have run := @readRun_append rest v stop'
  by_cases point : (readRun v).2.head? = some '.'
  · obtain ⟨rest', eq⟩ := List.head?_eq_some_iff.mp point
    rw [eq, List.cons_append] at run
    rw [readMantissa_of_point run, readMantissa_of_point (Prod.ext rfl eq), readRun_append stop']
  · rw [readMantissa_of_stop point, readMantissa_of_stop, run]
    rw [run]
    cases eq : (readRun v).2 with
    | nil => exact fun h => absurd (stop '.' h) (by decide)
    | cons c r => simpa [eq] using point

/-! ## Exponents -/

theorem head?_exponentText (h : ExponentText es e) :
    ∀ c ∈ (es ++ rest).head?, startsCore c = false := by
  intro c hc
  obtain rfl : 'E' = c := by cases h <;> simpa using hc
  decide

theorem readExponent?_of_text (h : ExponentText es e)
    (stop : ∀ c ∈ rest.head?, c.isDigit = false ∧ c ≠ '+') :
    readExponent? (es ++ rest) = some (e, rest) := by
  have drop : ∀ {ds : List Char}, (∀ d ∈ ds, d.isDigit) →
      ((ds ++ rest).takeWhile Char.isDigit).length = ds.length ∧
        (ds ++ rest).dropWhile Char.isDigit = rest := by
    intro ds hds
    rw [List.takeWhile_append_of_pos hds, List.dropWhile_append_of_pos hds]
    cases rest with
    | nil => simp
    | cons c rest => simp [(stop c rfl).1]
  cases h with
  | @bare ds hds =>
    have sign : ∀ cs, ds ++ rest = '+' :: cs → False := by
      intro cs eq
      cases ds with
      | nil => exact (stop '+' (by rw [← List.nil_append rest, eq]; rfl)).2 rfl
      | cons d ds =>
        obtain rfl := (List.cons.inj eq).1
        exact absurd (hds '+' List.mem_cons_self) (by decide)
    rw [List.cons_append, readExponent?.eq_2 _ sign, (drop hds).1, (drop hds).2]
  | plus hds =>
    rw [List.cons_append, List.cons_append, readExponent?, (drop hds).1, (drop hds).2]

theorem readExponent?_eq_none (h : cs.head? ≠ some 'E') : readExponent? cs = none := by
  unfold readExponent?
  split <;> simp_all

theorem readExponent?_sound (h : readExponent? cs = some (e, rest)) :
    ∃ text, cs = text ++ rest ∧ ExponentText text e := by
  unfold readExponent? at h
  split at h
  next cs =>
    obtain ⟨rfl, rfl⟩ := Prod.mk.inj (Option.some.inj h)
    exact ⟨'E' :: '+' :: cs.takeWhile Char.isDigit, by simp,
      .plus fun d hd => List.mem_takeWhile_imp hd⟩
  next cs _ =>
    obtain ⟨rfl, rfl⟩ := Prod.mk.inj (Option.some.inj h)
    exact ⟨'E' :: cs.takeWhile Char.isDigit, by simp, .bare fun d hd => List.mem_takeWhile_imp hd⟩
  next => contradiction

theorem length_readExponent?_le (h : ExponentText es e) :
    ∃ e' rest', readExponent? (es ++ rest) = some (e', rest') ∧ rest'.length ≤ rest.length := by
  have drop : ∀ {ds : List Char}, (∀ d ∈ ds, d.isDigit) →
      ((ds ++ rest).dropWhile Char.isDigit).length ≤ rest.length := by
    intro ds hds
    rw [List.dropWhile_append_of_pos hds]
    exact (List.dropWhile_sublist _).length_le
  cases h with
  | plus hds => exact ⟨_, _, rfl, drop hds⟩
  | @bare ds hds =>
    by_cases sign : ∃ cs, ds ++ rest = '+' :: cs
    · obtain ⟨cs, eq⟩ := sign
      have short : cs.length < rest.length := by
        cases ds with
        | nil => simp [show rest = '+' :: cs from eq]
        | cons d ds =>
          obtain rfl := (List.cons.inj eq).1
          exact absurd (hds '+' List.mem_cons_self) (by decide)
      refine ⟨_, _, by rw [List.cons_append, eq]; rfl, ?_⟩
      have := (@List.dropWhile_sublist _ cs Char.isDigit).length_le
      omega
    · refine ⟨_, _, readExponent?.eq_2 _ fun cs eq => sign ⟨cs, eq⟩, drop hds⟩

theorem readExponent?_append (stop : ∀ c ∈ rest.head?, c.isDigit = false ∧ c ≠ 'E' ∧ c ≠ '+') :
    readExponent? (v ++ rest) = (readExponent? v).map fun r => (r.1, r.2 ++ rest) := by
  have digits : ∀ v : List Char, (v ++ rest).takeWhile Char.isDigit = v.takeWhile Char.isDigit ∧
      (v ++ rest).dropWhile Char.isDigit = v.dropWhile Char.isDigit ++ rest := by
    intro v
    induction v with
    | nil =>
      cases rest with
      | nil => simp
      | cons c rest => simp [(stop c rfl).1]
    | cons c v ih => cases h : c.isDigit <;> simp [h, ih]
  fun_cases readExponent? v with
  | case1 v => simp [readExponent?, digits v]
  | case2 v sign =>
    rw [List.cons_append, readExponent?.eq_2, (digits v).1, (digits v).2]
    · rfl
    · intro cs eq
      cases v with
      | nil => exact (stop '+' (by rw [← List.nil_append rest, eq]; rfl)).2.2 rfl
      | cons c v => exact sign v (by rw [(List.cons.inj eq).1])
  | case3 _ _ other =>
    rw [readExponent?_eq_none]
    · rfl
    · cases v with
      | nil => exact fun h => (stop 'E' h).2.1 rfl
      | cons c v => simpa using fun h => other v (by rw [h])

/-! ## Cores -/

theorem read_of_exponent (h : readMantissa cs = (ts, rest)) (ne : ts ≠ [])
    (h' : readExponent? rest = some (e, v)) : read cs = (ts ++ [.exponent e], v) := by
  unfold read
  rw [h]
  cases ts with
  | nil => exact absurd rfl ne
  | cons t ts => simp [h']

theorem read_of_mantissa (h : readMantissa cs = (ts, rest))
    (h' : ts = [] ∨ readExponent? rest = none) : read cs = (ts, rest) := by
  unfold read
  rw [h]
  cases ts with
  | nil => rfl
  | cons t ts => simp [h'.resolve_left]

/-- How a core is read: the exponent only counts after another token. -/
theorem read_cases (cs : List Char) :
    (∃ e rest, (readMantissa cs).1 ≠ [] ∧ readExponent? (readMantissa cs).2 = some (e, rest) ∧
      read cs = ((readMantissa cs).1 ++ [.exponent e], rest)) ∨
    (((readMantissa cs).1 = [] ∨ readExponent? (readMantissa cs).2 = none) ∧
      read cs = readMantissa cs) := by
  by_cases h : (readMantissa cs).1 = [] ∨ readExponent? (readMantissa cs).2 = none
  · exact .inr ⟨h, read_of_mantissa rfl h⟩
  · obtain ⟨ne, some⟩ := not_or.mp h
    obtain ⟨⟨e, rest⟩, found⟩ := Option.ne_none_iff_exists'.mp some
    exact .inl ⟨e, rest, ne, found, read_of_exponent rfl ne found⟩

theorem Ends.startsCore (h : Ends rest) : ∀ c ∈ rest.head?, startsCore c = false :=
  fun c hc => (h c hc).1

theorem Ends.isDigit (h : Ends rest) :
    ∀ c ∈ rest.head?, c.isDigit = false ∧ c ≠ 'E' ∧ c ≠ '+' := by
  intro c hc
  obtain ⟨notCore, other⟩ := h c hc
  refine ⟨Bool.eq_false_iff.mpr fun digit => ?_, other⟩
  have := ofChar?_eq_none_of_startsCore notCore
  rw [runChar_iff.mp (.required digit)] at this
  contradiction

theorem read_of_text (h : CoreText cs core) (ends : Ends rest) :
    read (cs ++ rest) = (core, rest) := by
  cases h with
  | mantissa h =>
    apply read_of_mantissa (readMantissa_of_text h ends.startsCore)
    right
    apply readExponent?_eq_none
    exact fun eq => (ends 'E' eq).2.1 rfl
  | @exponent cs es ts e h ne h' =>
    have mantissa : readMantissa (cs ++ (es ++ rest)) = (ts, es ++ rest) :=
      readMantissa_of_text h (head?_exponentText h')
    have exponent : readExponent? (es ++ rest) = some (e, rest) :=
      readExponent?_of_text h' fun c hc => ⟨(ends.isDigit c hc).1, (ends.isDigit c hc).2.2⟩
    rw [List.append_assoc, read_of_exponent mantissa (h.ne_nil_iff.mpr ne) exponent]

theorem read_sound (cs : List Char) :
    ∃ text, cs = text ++ (read cs).2 ∧ CoreText text (read cs).1 := by
  obtain ⟨text, split, mantissa⟩ := readMantissa_sound cs
  obtain ⟨e, rest, ne, found, eq⟩ | ⟨-, eq⟩ := read_cases cs
  · obtain ⟨text', split', exponent⟩ := readExponent?_sound found
    rw [eq]
    refine ⟨text ++ text', ?_, .exponent mantissa (mantissa.ne_nil_iff.mp ne) exponent⟩
    rw [List.append_assoc, ← split', ← split]
  · rw [eq]
    exact ⟨text, split, .mantissa mantissa⟩

theorem length_read_le_readMantissa (cs : List Char) :
    (read cs).2.length ≤ (readMantissa cs).2.length := by
  obtain ⟨e, rest, -, found, eq⟩ | ⟨-, eq⟩ := read_cases cs
  · obtain ⟨text, split, -⟩ := readExponent?_sound found
    rw [eq, split]
    simp
  · rw [eq]

/-- No text of a core at the start of the input is longer than the one that is read. -/
theorem length_read_le (h : CoreText cs core) : (read (cs ++ rest)).2.length ≤ rest.length := by
  cases h with
  | mantissa h => exact (length_read_le_readMantissa _).trans (length_readMantissa_le h)
  | @exponent cs es ts e h ne h' =>
    obtain ⟨e', rest', found, short⟩ := @length_readExponent?_le es rest e h'
    have mantissa : readMantissa (cs ++ (es ++ rest)) = (ts, es ++ rest) :=
      readMantissa_of_text h (head?_exponentText h')
    rw [List.append_assoc, read_of_exponent mantissa (h.ne_nil_iff.mpr ne) found]
    exact short

theorem read_append (ends : Ends rest) :
    read (v ++ rest) = ((read v).1, (read v).2 ++ rest) := by
  have mantissa := @readMantissa_append rest v ends.startsCore
  have exponent := @readExponent?_append rest (readMantissa v).2 ends.isDigit
  obtain ⟨e, rest', ne, found, eq⟩ | ⟨stop, eq⟩ := read_cases v
  · rw [found] at exponent
    rw [eq, read_of_exponent mantissa ne exponent]
  · rw [eq, read_of_mantissa mantissa]
    exact stop.imp_right fun none => by rw [exponent, none]; rfl

theorem read_ne_self (h : startsCore c) : (read (c :: v)).2 ≠ c :: v := by
  have text : ∃ core, CoreText [c] core := by
    by_cases point : c = '.'
    · subst point
      exact ⟨_, .mantissa (.fraction .nil .nil)⟩
    · obtain ⟨t, ht⟩ := Option.isSome_iff_exists.mp (by simpa [startsCore, point] using h)
      exact ⟨_, .mantissa (.integer (.cons (runChar_iff.mpr ht) .nil))⟩
  obtain ⟨core, text⟩ := text
  intro eq
  have short := @length_read_le [c] v core text
  rw [List.singleton_append, eq, List.length_cons] at short
  omega

end Core

/-- The tokens of a text are determined. -/
theorem CoreText.unique {core' : Core} (h : CoreText cs core) (h' : CoreText cs core') :
    core' = core := by
  have read := @Core.read_of_text cs [] core h (by simp [Core.Ends])
  have read' := @Core.read_of_text cs [] core' h' (by simp [Core.Ends])
  exact congrArg Prod.fst (read'.symm.trans read)

theorem CoreText.ne_nil (h : CoreText cs core) (ne : cs ≠ []) : core ≠ [] := by
  cases h with
  | mantissa h => exact h.ne_nil_iff.mpr ne
  | exponent => simp

theorem RunChar.startsCore (h : RunChar c t) : startsCore c := by
  simp [DecimalPattern.startsCore, runChar_iff.mp h]

theorem forall₂_startsCore (h : List.Forall₂ RunChar cs ts) : ∀ c ∈ cs, startsCore c := by
  intro c hc
  obtain ⟨i, hi, rfl⟩ := List.mem_iff_getElem.mp hc
  exact (h.get hi (h.length_eq ▸ hi)).startsCore

theorem MantissaText.startsCore (h : MantissaText cs ts) : ∀ c ∈ cs, startsCore c := by
  cases h with
  | integer h => exact forall₂_startsCore h
  | fraction h h' =>
    intro c hc
    rcases List.mem_append.mp hc with hc | hc
    · exact forall₂_startsCore h c hc
    · rcases List.mem_cons.mp hc with rfl | hc
      · decide
      · exact forall₂_startsCore h' c hc

theorem CoreText.mem (h : CoreText cs core) : ∀ c ∈ cs, startsCore c ∨ c = 'E' ∨ c = '+' := by
  have digits : ∀ {ds : List Char}, (∀ d ∈ ds, d.isDigit) → ∀ d ∈ ds, DecimalPattern.startsCore d :=
    fun h d hd => (RunChar.required (h d hd)).startsCore
  cases h with
  | mantissa h => exact fun c hc => .inl (h.startsCore c hc)
  | exponent h _ h' =>
    intro c hc
    rcases List.mem_append.mp hc with hc | hc
    · exact .inl (h.startsCore c hc)
    · cases h' with
      | bare hds =>
        rcases List.mem_cons.mp hc with rfl | hc
        · exact .inr (.inl rfl)
        · exact .inl (digits hds c hc)
      | plus hds =>
        rcases List.mem_cons.mp hc with rfl | hc
        · exact .inr (.inl rfl)
        · rcases List.mem_cons.mp hc with rfl | hc
          · exact .inr (.inr rfl)
          · exact .inl (digits hds c hc)

theorem CoreText.not_mem (h : CoreText cs core) {c : Char}
    (hc : startsCore c = false ∧ c ≠ 'E' ∧ c ≠ '+') : c ∉ cs := by
  intro mem
  rcases h.mem c mem with core | e | plus
  · exact absurd (hc.1.symm.trans core) Bool.false_ne_true
  · exact hc.2.1 e
  · exact hc.2.2 plus

end DecimalPattern
