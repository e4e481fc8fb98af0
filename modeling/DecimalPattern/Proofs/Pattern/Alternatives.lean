import DecimalPattern.Toml.Reader
import DecimalPattern.Proofs.Pattern.Splitting

/-! # Sections by ordered alternatives

The grammar of sections as readers that can fail. Alternatives are tried in order from the same
place, a quoted text that does not end is given up as a whole, and repetition fails when an item
takes nothing. The readers of sections never fail, and what they read is what the scan reads.
-/

namespace DecimalPattern.Grammar

open Toml Glyph

variable {α μ : Type}

/-- Items as long as one can be read. -/
def repeated (item : Reader α) (cs : List Char) : Option (List α × List Char) :=
  match item cs with
  | none => some ([], cs)
  | some (a, rest) =>
    if rest.length < cs.length then (repeated item rest).map fun r => (a :: r.1, r.2) else none
termination_by cs.length

/-! ## Literal text -/

def escapedQuote : Reader Char := do
  Reader.char '\''
  Reader.char '\''
  return '\''

def quotedText : Reader (List Char) := do
  Reader.char '\''
  let content ← repeated (escapedQuote <|> Reader.satisfy (· != '\''))
  Reader.char '\''
  return content

def bareMark (mark? : Char → Option μ) : Reader μ
  | [] => none
  | c :: cs => (mark? c).map (·, cs)

/-- A piece of text outside of cores. -/
def piece (ends : Char → Bool) (mark? : Char → Option μ) : Reader (Segment μ) :=
  (fun c => .text (String.singleton c)) <$> escapedQuote
    <|> (fun content => .text (String.ofList content)) <$> quotedText
    <|> .mark <$> bareMark mark?
    <|> (fun c => .text (String.singleton c)) <$> Reader.satisfy fun c => !(ends c || c == '\'')

/-- Adds a piece to what was read before, joining neighbouring texts. -/
def push (merged : List (Segment μ)) (part : Segment μ) : List (Segment μ) :=
  match merged.getLast?, part with
  | some (.text s), .text t => merged.dropLast ++ [.text (s ++ t)]
  | _, _ => merged ++ [part]

def pieces (ends : Char → Bool) (mark? : Char → Option μ) : Reader (List (Segment μ)) := do
  let parts ← repeated (piece ends mark?)
  return parts.foldl push []

/-! ## Cores -/

def runToken : Reader Token :=
  (fun c => .digit (.required c)) <$> Reader.satisfy Char.isDigit
    <|> (fun _ => .digit .optional) <$> Reader.char '#'
    <|> (fun _ => .digit .significant) <$> Reader.char '@'
    <|> (fun _ => .grouping) <$> Reader.char ','

def exponent : Reader Exponent := do
  Reader.char 'E'
  let plus ← optional (Reader.char '+')
  let digits ← Reader.span Char.isDigit
  return ⟨plus.isSome, digits.length⟩

def mantissa : Reader (List Token) := do
  let integer ← repeated runToken
  match ← optional (Reader.char '.') with
  | none => return integer
  | some _ => return integer ++ .point :: (← repeated runToken)

def core : Reader Core := do
  let tokens ← mantissa
  if tokens.isEmpty then return tokens
  match ← optional exponent with
  | none => return tokens
  | some e => return tokens ++ [.exponent e]

/-! ## Sections -/

def numberSection : Reader NumberSection := do
  let start ← get
  let before ← pieces (fun c => c == ';' || startsCore c) ScaleMark.ofChar?
  let tokens ← core
  let after ← pieces (· == ';') ScaleMark.ofChar?
  return ⟨String.ofList (consumed start (← get)), before, tokens, after⟩

def template : Reader Template := pieces (· == ';') Placeholder.ofChar?

/-! ## What readers do -/

section Readers

variable {β : Type} {c : Char} {cs : List Char}

theorem bind_apply (r : Reader α) (f : α → Reader β) (cs : List Char) :
    (r >>= f) cs = (r cs).bind fun x => f x.1 x.2 := rfl

theorem pure_apply (a : α) (cs : List Char) : (pure a : Reader α) cs = some (a, cs) := rfl

theorem map_apply (f : α → β) (r : Reader α) (cs : List Char) :
    (f <$> r) cs = (r cs).map fun x => (f x.1, x.2) := by
  show (r cs).bind _ = _
  cases r cs <;> rfl

theorem orElse_apply (r r' : Reader α) (cs : List Char) : (r <|> r') cs = (r cs).or (r' cs) := by
  show (r cs <|> r' cs) = _
  cases r cs <;> rfl

theorem optional_apply (r : Reader α) (cs : List Char) :
    (optional r : Reader (Option α)) cs =
      (r cs).elim (some (none, cs)) fun x => some (some x.1, x.2) := by
  show ((some <$> r : Reader (Option α)) <|> pure none) cs = _
  rw [orElse_apply, map_apply]
  cases r cs <;> rfl

theorem char_cons (c : Char) (cs : List Char) : Reader.char c (c :: cs) = some ((), cs) := by
  simp [Reader.char, bind_apply, Reader.satisfy, pure_apply]

theorem char_of_head?_ne (h : cs.head? ≠ some c) : Reader.char c cs = none := by
  cases cs with
  | nil => rfl
  | cons d cs =>
    have ne : d ≠ c := by simpa using h
    simp [Reader.char, bind_apply, Reader.satisfy, ne]

theorem char_cons_of_ne {d : Char} (h : d ≠ c) : Reader.char c (d :: cs) = none :=
  char_of_head?_ne (by simpa using h)

theorem get_apply (cs : List Char) : (get : Reader (List Char)) cs = some (cs, cs) := rfl

theorem repeated_of_none {item : Reader α} (h : item cs = none) :
    repeated item cs = some ([], cs) := by
  rw [repeated, h]

theorem repeated_of_some {item : Reader α} {a : α} {rest : List Char}
    (h : item cs = some (a, rest)) (shorter : rest.length < cs.length) :
    repeated item cs = (repeated item rest).map fun r => (a :: r.1, r.2) := by
  rw [repeated, h]
  simp [shorter]

end Readers

/-! ## Quoted texts -/

variable {ends : Char → Bool} {mark? : Char → Option μ} {c : Char} {cs rest : List Char}

theorem escapedQuote_pair : escapedQuote ('\'' :: '\'' :: cs) = some ('\'', cs) := by
  simp [escapedQuote, bind_apply, map_apply, char_cons]

theorem escapedQuote_single (h : cs.head? ≠ some '\'') : escapedQuote ('\'' :: cs) = none := by
  simp [escapedQuote, bind_apply, map_apply, char_cons, char_of_head?_ne h]

theorem escapedQuote_of_head?_ne (h : cs.head? ≠ some '\'') : escapedQuote cs = none := by
  simp [escapedQuote, bind_apply, char_of_head?_ne h]

/-- The reading of a quoted text up to the quote that closes it, and the scan from inside it. -/
theorem exists_content (ends : Char → Bool) (mark? : Char → Option μ) (cs : List Char) :
    ∃ content rest,
      repeated (escapedQuote <|> Reader.satisfy (· != '\'')) cs = some (content, rest) ∧
      (content = [] → cs.head? = rest.head?) ∧
      (rest = [] ∧ scan ends mark? true cs = none ∨
        ∃ rest', rest = '\'' :: rest' ∧ rest'.length < cs.length ∧
          scan ends mark? true cs =
            (scan ends mark? false rest').map fun r => (content.map .literal ++ r.1, r.2)) := by
  fun_induction halveQuotes cs with
  | case1 => exact ⟨[], [], repeated_of_none rfl, by simp, .inl ⟨rfl, rfl⟩⟩
  | case2 cs ih =>
    obtain ⟨content, rest, read, -, rest_cases⟩ := ih
    have item : (escapedQuote <|> Reader.satisfy (· != '\'')) ('\'' :: '\'' :: cs) =
        some ('\'', cs) := by
      rw [orElse_apply, escapedQuote_pair]
      rfl
    refine ⟨'\'' :: content, rest, by rw [repeated_of_some item (by grind), read]; rfl, by simp, ?_⟩
    obtain ⟨rfl, fails⟩ | ⟨rest', rfl, shorter, closes⟩ := rest_cases
    · exact .inl ⟨rfl, by simp [scan, fails]⟩
    · refine .inr ⟨rest', rfl, by simp only [List.length_cons]; omega, ?_⟩
      rw [scan, closes, Option.map_map]
      rfl
  | case3 cs single =>
    have alone := head?_ne_of_not_cons single
    have item : (escapedQuote <|> Reader.satisfy (· != '\'')) ('\'' :: cs) = none := by
      rw [orElse_apply, escapedQuote_single alone]
      rfl
    refine ⟨[], '\'' :: cs, repeated_of_none item, by simp, .inr ⟨cs, rfl, by simp, ?_⟩⟩
    rw [scan.eq_5 _ _ _ single]
    simp
  | case4 c cs _ hc ih =>
    have hc' : c ≠ '\'' := hc
    obtain ⟨content, rest, read, -, rest_cases⟩ := ih
    have item : (escapedQuote <|> Reader.satisfy (· != '\'')) (c :: cs) = some (c, cs) := by
      rw [orElse_apply, escapedQuote_of_head?_ne (by simpa using hc')]
      simp [Reader.satisfy, hc']
    refine ⟨c :: content, rest, by rw [repeated_of_some item (by simp), read]; rfl, by simp, ?_⟩
    obtain ⟨rfl, fails⟩ | ⟨rest', rfl, shorter, closes⟩ := rest_cases
    · exact .inl ⟨rfl, by simp [scan, fails]⟩
    · refine .inr ⟨rest', rfl, by simp only [List.length_cons]; omega, ?_⟩
      simp [scan, closes, Function.comp_def]

/-! ## Pieces -/

theorem piece_pair : piece ends mark? ('\'' :: '\'' :: cs) = some (.text "'", cs) := by
  simp [piece, orElse_apply, map_apply, escapedQuote_pair]

theorem quotedText_of_head?_ne (h : cs.head? ≠ some '\'') : quotedText cs = none := by
  simp [quotedText, bind_apply, char_of_head?_ne h]

theorem quotedText_cons :
    quotedText ('\'' :: cs) =
      (repeated (escapedQuote <|> Reader.satisfy (· != '\'')) cs).bind fun r =>
        (Reader.char '\'' r.2).map fun x => (r.1, x.2) := by
  simp [quotedText, bind_apply, map_apply, char_cons]

theorem piece_single (quote : mark? '\'' = none) (alone : cs.head? ≠ some '\'') :
    piece ends mark? ('\'' :: cs) =
      (quotedText ('\'' :: cs)).map fun x => (.text (String.ofList x.1), x.2) := by
  cases h : quotedText ('\'' :: cs) <;>
    simp [piece, orElse_apply, map_apply, escapedQuote_single alone, bareMark, quote,
      Reader.satisfy, h]

theorem piece_stop (hc : c ≠ '\'') (stop : ends c) (bare : mark? c = none) :
    piece ends mark? (c :: cs) = none := by
  have first : escapedQuote (c :: cs) = none := escapedQuote_of_head?_ne (by simpa using hc)
  have second : quotedText (c :: cs) = none := quotedText_of_head?_ne (by simpa using hc)
  simp [piece, orElse_apply, map_apply, first, second, bareMark, Reader.satisfy, bare, stop]

theorem exists_piece_bare (hc : c ≠ '\'') (open' : ends c = false) :
    ∃ part, piece ends mark? (c :: cs) = some (part, cs) ∧ part ≠ .text "" ∧
      Segment.glyphs [part] = [ofBare mark? c] := by
  have first : escapedQuote (c :: cs) = none := escapedQuote_of_head?_ne (by simpa using hc)
  have second : quotedText (c :: cs) = none := quotedText_of_head?_ne (by simpa using hc)
  cases found : mark? c with
  | some m =>
    refine ⟨.mark m, ?_, by simp, by simp [Segment.glyphs, ofBare, found]⟩
    simp [piece, orElse_apply, map_apply, first, second, bareMark, found]
  | none =>
    refine ⟨.text (String.singleton c), ?_, ?_, by simp [Segment.glyphs, ofBare, found]⟩
    · simp [piece, orElse_apply, map_apply, first, second, bareMark, found, Reader.satisfy, open',
        hc]
    · simp [← String.toList_inj]

/-- Pieces are read one after another, and stand for what the scan reads. -/
structure ReadsPieces (ends : Char → Bool) (mark? : Char → Option μ) (cs : List Char)
    (parts : List (Segment μ)) (rest : List Char) : Prop where
  read : repeated (piece ends mark?) cs = some (parts, rest)
  texts : ∀ s, .text s ∈ parts → s ≠ ""
  scanned : scan ends mark? false cs = some (Segment.glyphs parts, rest)

theorem ReadsPieces.cons {part : Segment μ} {parts : List (Segment μ)} {rest' : List Char}
    (item : piece ends mark? cs = some (part, rest)) (shorter : rest.length < cs.length)
    (ne : part ≠ .text "")
    (step : scan ends mark? false cs =
      (scan ends mark? false rest).map fun r => (Segment.glyphs [part] ++ r.1, r.2))
    (h : ReadsPieces ends mark? rest parts rest') :
    ReadsPieces ends mark? cs (part :: parts) rest' where
  read := by
    rw [repeated_of_some item shorter, h.read]
    rfl
  texts s hs := by
    rcases List.mem_cons.mp hs with hs | hs
    · rintro rfl
      exact ne hs.symm
    · exact h.texts s hs
  scanned := by
    rw [step, h.scanned, Segment.glyphs_cons part parts]
    rfl

theorem exists_readsPieces (quote : mark? '\'' = none) (disjoint : ∀ c, ends c → mark? c = none)
    (cs : List Char) : ∃ parts rest, ReadsPieces ends mark? cs parts rest := by
  induction k : cs.length using Nat.strong_induction_on generalizing cs with
  | _ k ih =>
    fun_cases halveQuotes cs with
    | case1 => exact ⟨[], [], repeated_of_none rfl, by simp, rfl⟩
    | case2 cs =>
      obtain ⟨parts, rest, pieces⟩ := ih cs.length (by grind) cs rfl
      refine ⟨_, rest, .cons piece_pair (by grind) (by simp) ?_ pieces⟩
      rw [scan]
      rfl
    | case3 cs single =>
      have alone := head?_ne_of_not_cons single
      have read := @piece_single μ ends mark? cs quote alone
      obtain ⟨content, rest, inner, nonempty, ending⟩ := exists_content ends mark? cs
      rw [quotedText_cons, inner] at read
      obtain ⟨rfl, fails⟩ | ⟨rest', rfl, shorter, closes⟩ := ending
      · refine ⟨[], '\'' :: cs, repeated_of_none read, by simp, ?_⟩
        rw [scan.eq_4 _ _ _ single, fails]
        rfl
      · obtain ⟨parts, rest, pieces⟩ := ih rest'.length (by grind) rest' rfl
        have item :
            piece ends mark? ('\'' :: cs) = some (.text (String.ofList content), rest') := by
          simpa [char_cons] using read
        have ne : Segment.text (String.ofList content) ≠ (.text "" : Segment μ) := by
          intro eq
          exact alone (nonempty (by simpa using eq))
        refine ⟨_, rest, .cons item (by grind) ne ?_ pieces⟩
        obtain ⟨r, outside⟩ := exists_scan_false ends mark? rest'
        rw [scan.eq_4 _ _ _ single, closes, outside]
        simp [Segment.glyphs]
    | case4 c cs _ hc =>
      have hc' : c ≠ '\'' := hc
      cases stop : ends c with
      | true =>
        have item := @piece_stop μ ends mark? c cs hc' stop (disjoint c stop)
        refine ⟨[], c :: cs, repeated_of_none item, by simp, ?_⟩
        simp [scan, stop, Segment.glyphs]
      | false =>
        obtain ⟨part, item, ne, glyphs⟩ := @exists_piece_bare μ ends mark? c cs hc' stop
        obtain ⟨parts, rest, pieces⟩ := ih cs.length (by grind) cs rfl
        refine ⟨_, rest, .cons item (by grind) ne ?_ pieces⟩
        simp [scan, stop, glyphs]

/-! ## Joining of texts -/

theorem glyphs_push (merged : List (Segment μ)) (part : Segment μ) :
    Segment.glyphs (push merged part) = Segment.glyphs merged ++ Segment.glyphs [part] := by
  unfold push
  split
  next s t last =>
    obtain ⟨front, rfl⟩ := List.getLast?_eq_some_iff.mp last
    simp [Segment.glyphs_append, Segment.glyphs]
  next => rw [Segment.glyphs_append]

theorem normal_push {merged : List (Segment μ)} {part : Segment μ} (h : Segment.Normal merged)
    (ne : part ≠ .text "") : Segment.Normal (push merged part) := by
  fun_cases push merged part with
  | case1 s t last =>
    obtain ⟨front, rfl⟩ := List.getLast?_eq_some_iff.mp last
    obtain ⟨texts, apart⟩ := h
    rw [List.isChain_append] at apart
    rw [List.dropLast_concat]
    refine ⟨fun u hu => ?_, ?_⟩
    · rcases List.mem_append.mp hu with hu | hu
      · exact texts u (List.mem_append_left _ hu)
      · obtain rfl : u = s ++ t := by simpa using hu
        simp [texts s (by simp)]
    · refine List.isChain_append.mpr ⟨apart.1, .singleton _, fun x hx y hy => ?_⟩
      obtain rfl : Segment.text (s ++ t) = y := by simpa using hy
      exact apart.2.2 x hx (.text s) rfl
  | case2 _ other =>
    refine ⟨fun u hu => ?_, List.isChain_append.mpr ⟨h.apart, .singleton _, fun x hx y hy => ?_⟩⟩
    · rcases List.mem_append.mp hu with hu | hu
      · exact h.text_ne_empty u hu
      · rintro rfl
        exact ne (List.mem_singleton.mp hu).symm
    · obtain rfl : part = y := by simpa using hy
      rintro ⟨left, right⟩
      cases x with
      | mark m => exact Bool.false_ne_true left
      | text s =>
        cases part with
        | mark m => exact Bool.false_ne_true right
        | text t => exact other s t hx rfl

theorem foldl_push {merged parts : List (Segment μ)} (h : Segment.Normal merged)
    (texts : ∀ s, .text s ∈ parts → s ≠ "") :
    parts.foldl push merged =
      Segment.ofGlyphs (Segment.glyphs merged ++ Segment.glyphs parts) := by
  induction parts generalizing merged with
  | nil => simp [Segment.glyphs, Segment.ofGlyphs_glyphs h]
  | cons part parts ih =>
    have ne : part ≠ .text "" := by
      rintro rfl
      exact texts "" List.mem_cons_self rfl
    rw [List.foldl_cons, ih (normal_push h ne) fun s hs => texts s (List.mem_cons_of_mem part hs),
      glyphs_push, Segment.glyphs_cons part parts, List.append_assoc]

theorem pieces_eq (quote : mark? '\'' = none) (disjoint : ∀ c, ends c → mark? c = none)
    (cs : List Char) : pieces ends mark? cs = some (Segment.read ends mark? cs) := by
  obtain ⟨parts, rest, p⟩ := @exists_readsPieces μ ends mark? quote disjoint cs
  have joined : parts.foldl push [] = Segment.ofGlyphs (Segment.glyphs parts) :=
    foldl_push Segment.normal_nil p.texts
  simp [pieces, bind_apply, pure_apply, p.read, Segment.read, p.scanned, joined]

/-! ## Cores -/

theorem runToken_nil : runToken [] = none := rfl

theorem runToken_cons (c : Char) (cs : List Char) :
    runToken (c :: cs) = (Token.ofChar? c).map (·, cs) := by
  simp only [runToken, orElse_apply, map_apply, Reader.satisfy]
  cases found : Token.ofChar? c with
  | some t =>
    cases runChar_iff.mpr found with
    | required h => simp [h]
    | optional => simp [char_cons, show Char.isDigit '#' = false from by decide]
    | significant =>
      simp [char_cons, char_cons_of_ne, show Char.isDigit '@' = false from by decide]
    | grouping => simp [char_cons, char_cons_of_ne, show Char.isDigit ',' = false from by decide]
  | none =>
    have other : ∀ {t : Token}, ¬ RunChar c t := by
      intro t h
      rw [runChar_iff.mp h] at found
      contradiction
    have digit : c.isDigit = false := Bool.eq_false_iff.mpr fun h => other (.required h)
    have optional : c ≠ '#' := by rintro rfl; exact other .optional
    have significant : c ≠ '@' := by rintro rfl; exact other .significant
    have grouping : c ≠ ',' := by rintro rfl; exact other .grouping
    simp [digit, char_cons_of_ne, optional, significant, grouping]

theorem repeated_runToken (cs : List Char) : repeated runToken cs = some (Core.readRun cs) := by
  induction cs with
  | nil => exact repeated_of_none runToken_nil
  | cons c cs ih =>
    have item := runToken_cons c cs
    rw [Core.readRun]
    cases found : Token.ofChar? c with
    | none =>
      rw [found] at item
      exact repeated_of_none item
    | some t =>
      rw [found] at item
      rw [repeated_of_some item (by grind), ih]
      rfl

theorem mantissa_eq (cs : List Char) : mantissa cs = some (Core.readMantissa cs) := by
  simp only [mantissa, bind_apply, repeated_runToken, optional_apply, Option.bind_some]
  by_cases point : (Core.readRun cs).2.head? = some '.'
  · obtain ⟨rest, eq⟩ := List.head?_eq_some_iff.mp point
    rw [Core.readMantissa_of_point (Prod.ext rfl eq), eq, char_cons]
    simp [map_apply, repeated_runToken]
  · rw [Core.readMantissa_of_stop point, char_of_head?_ne point]
    rfl

theorem exponent_eq (cs : List Char) : exponent cs = Core.readExponent? cs := by
  fun_cases Core.readExponent? cs with
  | case1 cs =>
    simp [exponent, bind_apply, map_apply, optional_apply, char_cons, Reader.span]
  | case2 cs sign =>
    have none : Reader.char '+' cs = none :=
      char_of_head?_ne fun h => (List.head?_eq_some_iff.mp h).elim sign
    simp [exponent, bind_apply, map_apply, optional_apply, char_cons, Reader.span, none]
  | case3 _ _ other =>
    have none : Reader.char 'E' cs = none :=
      char_of_head?_ne fun h => (List.head?_eq_some_iff.mp h).elim other
    simp [exponent, bind_apply, none]

theorem core_eq (cs : List Char) : core cs = some (Core.read cs) := by
  simp only [core, bind_apply, mantissa_eq, Option.bind_some]
  obtain ⟨e, rest, ne, found, eq⟩ | ⟨stop, eq⟩ := Core.read_cases cs
  · rw [eq]
    have nonempty : (Core.readMantissa cs).1.isEmpty = false := by simpa using ne
    simp [nonempty, bind_apply, optional_apply, exponent_eq, found, pure_apply]
  · rw [eq]
    generalize Core.readMantissa cs = read at stop
    obtain ⟨tokens, rest⟩ := read
    cases tokens with
    | nil => rfl
    | cons t tokens =>
      have none : exponent rest = none := by
        rw [exponent_eq]
        exact stop.resolve_left (List.cons_ne_nil t tokens)
      simp [bind_apply, optional_apply, none, pure_apply]

/-! ## Sections -/

theorem ofChar?_eq_none {c : Char} (h : c == ';' || startsCore c) :
    ScaleMark.ofChar? c = none := by
  have percent : c ≠ '%' := by rintro rfl; exact absurd h (by decide)
  have permille : c ≠ '‰' := by rintro rfl; exact absurd h (by decide)
  simp [ScaleMark.ofChar?, percent, permille]

theorem numberSection_eq (cs : List Char) : numberSection cs = some (NumberSection.read cs) := by
  have before := @pieces_eq _ (fun c => c == ';' || startsCore c) ScaleMark.ofChar? rfl
    fun c => ofChar?_eq_none
  have after := @pieces_eq _ (· == ';') ScaleMark.ofChar? rfl
    fun c hc => ofChar?_eq_none (by simp [hc])
  simp [numberSection, bind_apply, get_apply, before, core_eq, after]
  rfl

theorem template_eq (cs : List Char) : template cs = some (Template.read cs) :=
  pieces_eq (by decide) (by simp) cs

/-! ## Outcomes of reading a pattern -/

/-- The parity of its quotes and the number of its unquoted semicolons decide how the reading of a
pattern ends. No section is the cause of a failure. -/
theorem parse_by_parity (p : String) (ne : p ≠ "") :
    (∀ cs, numberSection cs = some (NumberSection.read cs)) ∧
    (∀ cs, template cs = some (Template.read cs)) ∧
    ((∃ P, Pattern.parse p = .ok P) ↔
      Even (p.toList.count '\'') ∧ (unquoted p.toList).count ';' ≤ 3) ∧
    (Odd (p.toList.count '\'') → ∃ before n after, LastOddRun p.toList before n after ∧
      Pattern.parse p = .error (.unterminatedQuote p
        (byteWidth (before ++ List.replicate (n - 1) '\'')))) ∧
    (Even (p.toList.count '\'') → 3 < (unquoted p.toList).count ';' →
      Pattern.parse p = .error (.tooManySections p (1 + (unquoted p.toList).count ';'))) := by
  refine ⟨numberSection_eq, template_eq, ?_⟩
  rcases Nat.even_or_odd (p.toList.count '\'') with even | odd
  · obtain ⟨first, others, s⟩ := exists_sections even
    have parsed := parse_eq ne s
    have notOdd := Nat.not_odd_iff_even.mpr even
    rw [s.count_semicolon]
    simp only [ne_eq, not_true, if_false] at parsed
    refine ⟨?_, fun odd => absurd odd notOdd, fun _ many => ?_⟩
    · rw [parsed]
      split_ifs with many
      · simp; omega
      · simp [even]; omega
    · rw [parsed, if_pos (by omega)]
  · obtain ⟨before, n, after, r⟩ :=
      exists_lastOddRun fun even => Nat.not_even_iff_odd.mpr odd even.even_count
    obtain ⟨first, others, s, closed⟩ := exists_sections_of_lastOddRun odd r
    have parsed := parse_eq ne s
    have notEven := Nat.not_even_iff_odd.mpr odd
    rw [if_pos (List.cons_ne_nil _ _), closed] at parsed
    refine ⟨?_, fun _ => ⟨before, n, after, r, parsed⟩, fun even => absurd even notEven⟩
    simp [parsed, notEven]

theorem parse_by_parity_of_semicolons_in_quotes :
    "';'0;'‰;';'';#;;@" ≠ "" ∧
      Pattern.parse "';'0;'‰;';'';#;;@" = .error (.tooManySections "';'0;'‰;';'';#;;@" 6) := by
  have ne : "';'0;'‰;';'';#;;@" ≠ "" := by decide
  obtain ⟨-, -, -, -, many⟩ := parse_by_parity "';'0;'‰;';'';#;;@" ne
  exact ⟨ne, many (by decide) (by decide)⟩

end DecimalPattern.Grammar
