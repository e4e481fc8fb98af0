import Mathlib.Algebra.Ring.Parity
import Mathlib.Data.List.Basic

/-! # Quoting by parity

A character is quoted when the number of quotes before it is odd. The runs of quotes decide how
quotes pair up: a run of even length stands for half as many quotes and changes nothing, the last
quote of a run of odd length opens or closes a quoted text.
-/

namespace DecimalPattern

variable {quoted : Bool} {cs as bs u v before after : List Char} {n : ℕ}

/-- Whether what follows a text is quoted. -/
def quotedAfter : Bool → List Char → Bool
  | quoted, [] => quoted
  | quoted, c :: cs => quotedAfter (quoted ^^ c == '\'') cs

@[simp] theorem quotedAfter_nil : quotedAfter quoted [] = quoted := rfl

@[simp] theorem quotedAfter_cons (c : Char) :
    quotedAfter quoted (c :: cs) = quotedAfter (quoted ^^ c == '\'') cs := rfl

theorem quotedAfter_cons_of_ne {c : Char} (hc : c ≠ '\'') :
    quotedAfter quoted (c :: cs) = quotedAfter quoted cs := by
  rw [quotedAfter_cons, beq_false_of_ne hc, Bool.xor_false]

@[simp] theorem quotedAfter_append :
    quotedAfter quoted (as ++ bs) = quotedAfter (quotedAfter quoted as) bs := by
  induction as generalizing quoted with
  | nil => rfl
  | cons c as ih => exact ih

theorem quotedAfter_eq_self_iff : quotedAfter quoted cs = quoted ↔ Even (cs.count '\'') := by
  induction cs generalizing quoted with
  | nil => simp
  | cons c cs ih =>
    by_cases hc : c = '\''
    · subst hc
      rw [quotedAfter_cons, List.count_cons_self, Nat.even_add_one, ← @ih (!quoted)]
      cases quoted <;> simp
    · rw [quotedAfter_cons_of_ne hc, List.count_cons_of_ne hc, ih]

/-- The characters of a text that are not quoted. -/
def unquotedFrom : Bool → List Char → List Char
  | _, [] => []
  | quoted, c :: cs =>
    if quoted then unquotedFrom (quoted ^^ c == '\'') cs
    else c :: unquotedFrom (quoted ^^ c == '\'') cs

/-- The characters before which the number of quotes is even. -/
abbrev unquoted (cs : List Char) : List Char := unquotedFrom false cs

@[simp] theorem unquotedFrom_nil : unquotedFrom quoted [] = [] := rfl

@[simp] theorem unquotedFrom_append :
    unquotedFrom quoted (as ++ bs) =
      unquotedFrom quoted as ++ unquotedFrom (quotedAfter quoted as) bs := by
  induction as generalizing quoted with
  | nil => rfl
  | cons c as ih => cases quoted <;> simp [unquotedFrom, ih]

theorem unquoted_append (closed : quotedAfter false as = false) :
    unquoted (as ++ bs) = unquoted as ++ unquoted bs := by
  simp [closed]

theorem mem_unquotedFrom_cons {c d : Char} (h : d ∈ unquotedFrom (quoted ^^ c == '\'') cs) :
    d ∈ unquotedFrom quoted (c :: cs) := by
  cases quoted with
  | true => exact h
  | false => exact List.mem_cons_of_mem c h

theorem mem_unquotedFrom_cons_of_ne {c d : Char} (hc : c ≠ '\'') (h : d ∈ unquotedFrom quoted cs) :
    d ∈ unquotedFrom quoted (c :: cs) :=
  mem_unquotedFrom_cons (by rwa [beq_false_of_ne hc, Bool.xor_false])

theorem mem_unquotedFrom {c : Char} :
    c ∈ unquotedFrom quoted cs ↔
      ∃ before after, cs = before ++ c :: after ∧ quotedAfter quoted before = false := by
  constructor
  · intro h
    induction cs generalizing quoted with
    | nil => simp at h
    | cons d cs ih =>
      have step : ∀ q, c ∈ unquotedFrom (q ^^ d == '\'') cs →
          ∃ before after, d :: cs = before ++ c :: after ∧ quotedAfter q before = false := by
        intro q hc
        obtain ⟨before, after, rfl, hq⟩ := ih hc
        exact ⟨d :: before, after, rfl, hq⟩
      cases quoted with
      | true => exact step true h
      | false =>
        rcases List.mem_cons.mp h with rfl | h
        · exact ⟨[], cs, rfl, rfl⟩
        · exact step false h
  · rintro ⟨before, after, rfl, hq⟩
    simp [hq, unquotedFrom]

/-- A character is unquoted where an even number of quotes stands before it. -/
theorem mem_unquoted {c : Char} :
    c ∈ unquoted cs ↔ ∃ before after, cs = before ++ c :: after ∧ Even (before.count '\'') := by
  simp only [mem_unquotedFrom, quotedAfter_eq_self_iff]

/-- A text is cut before its first unquoted character of a class. -/
theorem exists_unquoted_cut (p : Char → Bool) (quoted : Bool) (cs : List Char) :
    ∃ u v, cs = u ++ v ∧ (∀ c ∈ unquotedFrom quoted u, p c = false) ∧
      ∀ c ∈ v.head?, quotedAfter quoted u = false ∧ p c = true := by
  induction cs generalizing quoted with
  | nil => exact ⟨[], [], by simp⟩
  | cons c cs ih =>
    by_cases stop : quoted = false ∧ p c = true
    · exact ⟨[], c :: cs, by simp, by simp, by simp [stop]⟩
    · obtain ⟨u, v, rfl, bare, next⟩ := ih (quoted ^^ c == '\'')
      refine ⟨c :: u, v, rfl, fun d hd => ?_, next⟩
      cases quoted with
      | true => exact bare d hd
      | false =>
        rcases List.mem_cons.mp hd with rfl | hd
        · simpa using stop
        · exact bare d hd

/-! ## Runs of quotes -/

/-- A run of quotes that cannot be made longer, with what stands before and after it. -/
structure QuoteRun (cs before : List Char) (n : ℕ) (after : List Char) : Prop where
  eq : cs = before ++ (List.replicate n '\'' ++ after)
  pos : 0 < n
  before_ne : before.getLast? ≠ some '\''
  after_ne : after.head? ≠ some '\''

/-- The last run of odd length. -/
structure LastOddRun (cs before : List Char) (n : ℕ) (after : List Char) : Prop
    extends QuoteRun cs before n after where
  odd : Odd n
  last : ∀ before' n' after', QuoteRun cs before' n' after' → Odd n' →
    before'.length ≤ before.length

def EvenRuns (cs : List Char) : Prop := ∀ before n after, QuoteRun cs before n after → Even n

theorem QuoteRun.cons_of_ne {c : Char} (r : QuoteRun cs before n after)
    (h : before = [] → c ≠ '\'') : QuoteRun (c :: cs) (c :: before) n after where
  eq := by rw [r.eq]; rfl
  pos := r.pos
  before_ne := by
    cases before with
    | nil => simpa using h rfl
    | cons d before => simpa using r.before_ne
  after_ne := r.after_ne

theorem EvenRuns.of_pair (h : EvenRuns ('\'' :: '\'' :: cs)) : EvenRuns cs := by
  intro before n after r
  cases before with
  | nil =>
    have run : QuoteRun ('\'' :: '\'' :: cs) [] (n + 2) after :=
      ⟨by rw [r.eq]; rfl, by omega, by simp, r.after_ne⟩
    exact (Nat.even_add.mp (h _ _ _ run)).mpr even_two
  | cons c before =>
    refine h ('\'' :: '\'' :: c :: before) n after ⟨by rw [r.eq]; rfl, r.pos, ?_, r.after_ne⟩
    simpa using r.before_ne

theorem EvenRuns.of_cons {c : Char} (h : EvenRuns (c :: cs)) (hc : c ≠ '\'') : EvenRuns cs :=
  fun _ _ _ r => h _ _ _ (r.cons_of_ne fun _ => hc)

theorem not_evenRuns_single (h : cs.head? ≠ some '\'') : ¬ EvenRuns ('\'' :: cs) := by
  intro even
  have run : QuoteRun ('\'' :: cs) [] 1 cs := ⟨rfl, Nat.one_pos, by simp, h⟩
  exact absurd (even _ _ _ run) (by decide)

theorem exists_lastOddRun (h : ¬ EvenRuns cs) :
    ∃ before n after, LastOddRun cs before n after := by
  obtain ⟨before, n, after, r, odd⟩ : ∃ before n after, QuoteRun cs before n after ∧ Odd n := by
    simpa [EvenRuns] using h
  -- a later run of odd length has fewer characters from its start to the end of the text
  induction k : cs.length - before.length using Nat.strong_induction_on
    generalizing before n after with
  | _ k ih =>
    by_cases last : ∀ before' n' after', QuoteRun cs before' n' after' → Odd n' →
        before'.length ≤ before.length
    · exact ⟨before, n, after, r, odd, last⟩
    · push Not at last
      obtain ⟨before', n', after', r', odd', later⟩ := last
      have inside : before'.length ≤ cs.length := by rw [r'.eq]; simp
      exact ih (cs.length - before'.length) (by omega) before' n' after' r' odd' rfl

/-- Every run after the last one of odd length is even. -/
theorem LastOddRun.evenRuns_after (r : LastOddRun cs before n after) : EvenRuns after := by
  intro middle m rest r'
  by_contra odd
  have run : QuoteRun cs (before ++ (List.replicate n '\'' ++ middle)) m rest := by
    refine ⟨by rw [r.eq, r'.eq]; simp, r'.pos, ?_, r'.after_ne⟩
    cases middle with
    | nil =>
      obtain ⟨m, rfl⟩ := Nat.exists_eq_add_one.mpr r'.pos
      exact absurd (by rw [r'.eq]; rfl) r.after_ne
    | cons c middle => simpa using r'.before_ne
  have := r.last _ _ _ run (Nat.not_even_iff_odd.mp odd)
  have := r.pos
  simp only [List.length_append, List.length_replicate] at *
  omega

/-- Halves every run of quotes, leaving one out where the run is odd. -/
def halveQuotes : List Char → List Char
  | [] => []
  | '\'' :: '\'' :: cs => '\'' :: halveQuotes cs
  | '\'' :: cs => halveQuotes cs
  | c :: cs => c :: halveQuotes cs

theorem head?_ne_of_not_cons (h : ∀ rest, cs = '\'' :: rest → False) : cs.head? ≠ some '\'' := by
  cases cs with
  | nil => simp
  | cons c cs => simpa using fun hc => h cs (by rw [hc])

theorem not_cons_of_head?_ne (h : cs.head? ≠ some '\'') (rest : List Char)
    (eq : cs = '\'' :: rest) : False := h (by rw [eq]; rfl)

theorem EvenRuns.even_count (h : EvenRuns cs) : Even (cs.count '\'') := by
  fun_induction halveQuotes cs with
  | case1 => simp
  | case2 cs ih =>
    have := ih h.of_pair
    simpa [Nat.even_add_one] using this
  | case3 cs single ih =>
    exact absurd h (not_evenRuns_single (head?_ne_of_not_cons single))
  | case4 c cs _ hc ih =>
    have := ih (h.of_cons hc)
    rwa [List.count_cons_of_ne hc]

theorem LastOddRun.even_count_before (r : LastOddRun cs before n after)
    (odd : Odd (cs.count '\'')) : Even (before.count '\'') := by
  have rest := r.evenRuns_after.even_count
  have run := r.odd
  rw [r.eq, List.count_append, List.count_append, List.count_replicate_self] at odd
  grind

/-- Whether the run of quotes that ends a text is even. -/
def evenEnd : List Char → Bool
  | [] => true
  | ['\''] => false
  | '\'' :: '\'' :: cs => evenEnd cs
  | _ :: cs => evenEnd cs

theorem evenEnd_append_cons {c : Char} (as : List Char) (hc : c ≠ '\'') :
    evenEnd (as ++ c :: bs) = evenEnd bs := by
  fun_induction evenEnd as with
  | case1 => simp [evenEnd, hc]
  | case2 => simp [evenEnd, hc]
  | case3 as ih => exact ih
  | case4 d as single pair ih =>
    rw [List.cons_append, evenEnd, ih]
    · simp
    · intro rest hd eq
      cases as with
      | nil => exact hc (List.cons.inj eq).1
      | cons e as => exact pair as hd (by rw [(List.cons.inj eq).1])

theorem evenEnd_of_getLast?_ne (h : as.getLast? ≠ some '\'') : evenEnd as := by
  rcases List.eq_nil_or_concat' as with rfl | ⟨as, c, rfl⟩
  · rfl
  · exact evenEnd_append_cons as (by simpa using h)

theorem evenEnd_append_replicate (h : as.getLast? ≠ some '\'') (k : ℕ) :
    evenEnd (as ++ List.replicate (2 * k) '\'') := by
  have pairs : evenEnd (List.replicate (2 * k) '\'') := by
    induction k with
    | zero => rfl
    | succ k ih => exact ih
  rcases List.eq_nil_or_concat' as with rfl | ⟨as, c, rfl⟩
  · exact pairs
  · rw [List.append_assoc, List.singleton_append, evenEnd_append_cons as (by simpa using h), pairs]

/-- The quotes of a text pair up in the same way when another text follows it. -/
def PairsApart (as bs : List Char) : Prop := bs.head? = some '\'' → evenEnd as

namespace PairsApart

theorem of_head?_ne (h : bs.head? ≠ some '\'') : PairsApart as bs := fun eq => absurd eq h

theorem of_pair (h : PairsApart ('\'' :: '\'' :: as) bs) : PairsApart as bs := h

theorem of_cons {c : Char} (h : PairsApart (c :: as) bs)
    (single : c = '\'' → as.head? ≠ some '\'') : PairsApart as bs := by
  intro next
  have even := h next
  by_cases hc : c = '\''
  · cases as with
    | nil => rfl
    | cons d as =>
      have hd : d ≠ '\'' := by simpa using single hc
      rwa [← List.nil_append (d :: as), evenEnd_append_cons [] hd, ← evenEnd_append_cons [c] hd]
  · rwa [← evenEnd_append_cons [] hc]

theorem head?_ne (h : PairsApart ('\'' :: as) bs) (single : as.head? ≠ some '\'') :
    (as ++ bs).head? ≠ some '\'' := by
  cases as with
  | nil => exact fun next => absurd (h next) (by simp [evenEnd])
  | cons c as => exact single

end PairsApart

theorem halveQuotes_append (apart : PairsApart as bs) :
    halveQuotes (as ++ bs) = halveQuotes as ++ halveQuotes bs := by
  fun_induction halveQuotes as with
  | case1 => rfl
  | case2 as ih => simp [halveQuotes, ih apart.of_pair]
  | case3 as single ih =>
    have alone := head?_ne_of_not_cons single
    rw [List.cons_append, halveQuotes.eq_3 _ (not_cons_of_head?_ne (apart.head?_ne alone)),
      ih (apart.of_cons fun _ => alone)]
  | case4 c as _ hc ih =>
    rw [List.cons_append, halveQuotes.eq_4 _ _ (fun _ h => absurd h hc) hc,
      ih (apart.of_cons fun h => absurd h hc), List.cons_append]

theorem halveQuotes_replicate (n : ℕ) :
    halveQuotes (List.replicate n '\'') = List.replicate (n / 2) '\'' := by
  induction n using Nat.twoStepInduction with
  | zero => rfl
  | one => rfl
  | more n ih _ =>
    simp [List.replicate_succ, halveQuotes, ih]

/-- A maximal run of `n` quotes becomes one of `n / 2`. -/
theorem QuoteRun.halveQuotes_eq (r : QuoteRun cs before n after) :
    halveQuotes cs =
      halveQuotes before ++ (List.replicate (n / 2) '\'' ++ halveQuotes after) := by
  rw [r.eq, halveQuotes_append fun _ => evenEnd_of_getLast?_ne r.before_ne,
    halveQuotes_append (.of_head?_ne r.after_ne), halveQuotes_replicate]

theorem halveQuotes_ne_nil (even : Even (cs.count '\'')) (h : cs ≠ []) : halveQuotes cs ≠ [] := by
  fun_cases halveQuotes cs with
  | case1 => contradiction
  | case2 cs => exact List.cons_ne_nil _ _
  | case3 cs single =>
    cases cs with
    | nil => exact absurd even (by decide)
    | cons c cs =>
      have hc : c ≠ '\'' := by simpa using head?_ne_of_not_cons single
      simp [halveQuotes, hc]
  | case4 => exact List.cons_ne_nil _ _

end DecimalPattern
