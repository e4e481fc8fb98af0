/-! # Literal text and marks

Text outside a numeric core is read character by character. A quote opens a run in which every
character is literal, the next single quote closes it, and a doubled quote stands for one quote
both inside and outside such a run. A character that is not quoted may be a mark with a meaning
of its own, or may end the text. Neighbouring literal characters form one segment.
-/

namespace DecimalPattern

/-- A run of literal text or a mark. -/
inductive Segment (μ : Type)
  | text (s : String)
  | mark (m : μ)
  deriving DecidableEq

/-- A single literal character or a mark. -/
inductive Glyph (μ : Type)
  | literal (c : Char)
  | mark (m : μ)
  deriving DecidableEq

namespace Glyph

variable {μ : Type}

def ofBare (mark? : Char → Option μ) (c : Char) : Glyph μ :=
  match mark? c with
  | some m => .mark m
  | none => .literal c

/-- Reads on, inside a quoted run or outside. Inside, the end of the text is a failure; outside, a
quote that is never closed ends the text before it. -/
def scan (ends : Char → Bool) (mark? : Char → Option μ) :
    (quoted : Bool) → List Char → Option (List (Glyph μ) × List Char)
  | false, [] => some ([], [])
  | true, [] => none
  | quoted, '\'' :: '\'' :: cs =>
    (scan ends mark? quoted cs).map fun (glyphs, rest) => (.literal '\'' :: glyphs, rest)
  | false, '\'' :: cs => some ((scan ends mark? true cs).getD ([], '\'' :: cs))
  | true, '\'' :: cs => scan ends mark? false cs
  | false, c :: cs =>
    if ends c then some ([], c :: cs)
    else (scan ends mark? false cs).map fun (glyphs, rest) => (ofBare mark? c :: glyphs, rest)
  | true, c :: cs =>
    (scan ends mark? true cs).map fun (glyphs, rest) => (.literal c :: glyphs, rest)

/-- A glyph in front leaves the rest as it is. -/
theorem exists_eq_of_map_cons {glyph : Glyph μ} {scanned : Option (List (Glyph μ) × List Char)}
    {glyphs : List (Glyph μ)} {rest : List Char}
    (h : scanned.map (fun (glyphs, rest) => (glyph :: glyphs, rest)) = some (glyphs, rest)) :
    ∃ glyphs', scanned = some (glyphs', rest) := by
  obtain ⟨⟨glyphs', rest'⟩, rfl, eq⟩ := Option.map_eq_some_iff.mp h
  obtain ⟨-, rfl⟩ := Prod.mk.inj eq
  exact ⟨glyphs', rfl⟩

theorem length_le_of_scan {ends : Char → Bool} {mark? : Char → Option μ} {quoted : Bool}
    {cs rest : List Char} {glyphs : List (Glyph μ)}
    (h : scan ends mark? quoted cs = some (glyphs, rest)) : rest.length ≤ cs.length := by
  fun_induction scan ends mark? quoted cs generalizing glyphs with
  | case1 => simp_all
  | case2 => simp at h
  | case3 quoted cs ih =>
    obtain ⟨glyphs', inner⟩ := exists_eq_of_map_cons h
    have := ih inner
    simp only [List.length_cons]
    omega
  | case4 cs _ ih =>
    cases inner : scan ends mark? true cs with
    | none => simp_all
    | some result =>
      simp only [inner, Option.getD_some, Option.some.injEq] at h
      have := ih (h ▸ inner)
      simp only [List.length_cons]
      omega
  | case5 cs _ ih =>
    have := ih h
    simp only [List.length_cons]
    omega
  | case6 c cs => simp_all
  | case7 c cs _ _ _ ih =>
    obtain ⟨glyphs', inner⟩ := exists_eq_of_map_cons h
    have := ih inner
    simp only [List.length_cons]
    omega
  | case8 c cs _ _ ih =>
    obtain ⟨glyphs', inner⟩ := exists_eq_of_map_cons h
    have := ih inner
    simp only [List.length_cons]
    omega

end Glyph

namespace Segment

variable {μ : Type}

/-- Joins neighbouring literal characters. -/
def ofGlyphs : List (Glyph μ) → List (Segment μ)
  | [] => []
  | .mark m :: glyphs => .mark m :: ofGlyphs glyphs
  | .literal c :: glyphs =>
    match ofGlyphs glyphs with
    | .text s :: segments => .text (String.singleton c ++ s) :: segments
    | segments => .text (String.singleton c) :: segments

/-- Reads segments up to an unquoted character that ends them, or a quote that is never closed. -/
def read (ends : Char → Bool) (mark? : Char → Option μ) (cs : List Char) :
    List (Segment μ) × List Char :=
  match Glyph.scan ends mark? false cs with
  | some (glyphs, rest) => (ofGlyphs glyphs, rest)
  | none => ([], cs)

theorem length_read_le (ends : Char → Bool) (mark? : Char → Option μ) (cs : List Char) :
    (read ends mark? cs).2.length ≤ cs.length := by
  unfold read
  split
  next h => exact Glyph.length_le_of_scan h
  next => exact Nat.le_refl _

/-- The text that segments stand for, given that of each mark. -/
def render (shown : μ → String) : List (Segment μ) → String
  | [] => ""
  | .text s :: segments => s ++ render shown segments
  | .mark m :: segments => shown m ++ render shown segments

end Segment

end DecimalPattern
