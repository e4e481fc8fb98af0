import DecimalPattern.Pattern.Segment
import DecimalPattern.Proofs.Pattern.Quoting
import Mathlib.Data.List.Chain

/-! # Spelling of segments

A text whose quotes are all closed stands for a list of glyphs, read off it without looking at what
comes next. The scan gives these glyphs wherever the text is followed by a place to stop, and the
segments are the glyphs with neighbouring literals joined.
-/

namespace DecimalPattern

variable {μ : Type} {ends : Char → Bool} {mark? : Char → Option μ} {shown : μ → String}
  {quoted : Bool} {cs u rest : List Char}

/-- A text that opens with a quote that is never closed. -/
def Dangling (cs : List Char) : Prop :=
  ∃ inner, cs = '\'' :: inner ∧ inner.head? ≠ some '\'' ∧ EvenRuns inner

/-- Where a scan outside of quotes stops at once. -/
def Stops (ends : Char → Bool) (cs : List Char) : Prop :=
  ∀ c ∈ cs.head?, (c ≠ '\'' ∧ ends c) ∨ Dangling cs

namespace Glyph

/-- What the characters of a text stand for. -/
def resolve (mark? : Char → Option μ) : Bool → List Char → List (Glyph μ)
  | _, [] => []
  | quoted, '\'' :: '\'' :: cs => .literal '\'' :: resolve mark? quoted cs
  | quoted, '\'' :: cs => resolve mark? (!quoted) cs
  | quoted, c :: cs => (if quoted then .literal c else ofBare mark? c) :: resolve mark? quoted cs

theorem resolve_single (h : cs.head? ≠ some '\'') :
    resolve mark? quoted ('\'' :: cs) = resolve mark? (!quoted) cs :=
  resolve.eq_3 _ _ _ (not_cons_of_head?_ne h)

theorem resolve_cons {c : Char} (hc : c ≠ '\'') :
    resolve mark? quoted (c :: cs) =
      (if quoted then .literal c else ofBare mark? c) :: resolve mark? quoted cs :=
  resolve.eq_4 _ _ _ _ (fun _ h => absurd h hc) hc

theorem resolve_append (apart : PairsApart u rest) :
    resolve mark? quoted (u ++ rest) =
      resolve mark? quoted u ++ resolve mark? (quotedAfter quoted u) rest := by
  fun_induction resolve mark? quoted u with
  | case1 => rfl
  | case2 quoted u ih => simpa [resolve] using ih apart.of_pair
  | case3 quoted u single ih =>
    have alone := head?_ne_of_not_cons single
    rw [List.cons_append, resolve_single (apart.head?_ne alone), ih (apart.of_cons fun _ => alone)]
    simp
  | case4 quoted c u _ hc ih =>
    have hc' : c ≠ '\'' := hc
    rw [List.cons_append, resolve_cons hc', ih (apart.of_cons fun h => absurd h hc'),
      quotedAfter_cons_of_ne hc', List.cons_append]

/-- Outside of quotes the scan never fails. -/
theorem exists_scan_false (ends : Char → Bool) (mark? : Char → Option μ) (cs : List Char) :
    ∃ r, scan ends mark? false cs = some r := by
  generalize hq : false = quoted
  fun_induction scan ends mark? quoted cs with
  | case1 => exact ⟨_, rfl⟩
  | case2 => contradiction
  | case3 quoted cs ih =>
    obtain ⟨r, hr⟩ := ih hq
    exact ⟨_, by rw [hr]; rfl⟩
  | case4 => exact ⟨_, rfl⟩
  | case5 => contradiction
  | case6 => exact ⟨_, rfl⟩
  | case7 c cs _ _ _ ih =>
    obtain ⟨r, hr⟩ := ih hq
    exact ⟨_, by rw [hr]; rfl⟩
  | case8 => contradiction

theorem scan_append (closed : quotedAfter quoted u = false)
    (bare : ∀ c ∈ unquotedFrom quoted u, ends c = false) (apart : PairsApart u rest) :
    scan ends mark? quoted (u ++ rest) =
      (scan ends mark? false rest).map fun r => (resolve mark? quoted u ++ r.1, r.2) := by
  obtain ⟨r, hr⟩ := exists_scan_false ends mark? rest
  rw [hr]
  fun_induction resolve mark? quoted u with
  | case1 quoted =>
    obtain rfl : quoted = false := closed
    simpa using hr
  | case2 quoted u ih =>
    have inner := ih (by simpa using closed) (fun c hc => bare c ?_) apart.of_pair
    · simp [scan, inner]
    · exact mem_unquotedFrom_cons (mem_unquotedFrom_cons (by simpa using hc))
  | case3 quoted u single ih =>
    have alone := head?_ne_of_not_cons single
    have next := not_cons_of_head?_ne (apart.head?_ne alone)
    have inner := ih (by simpa using closed)
      (fun c hc => bare c (mem_unquotedFrom_cons (by simpa using hc)))
      (apart.of_cons fun _ => alone)
    cases quoted with
    | true => rw [List.cons_append, scan.eq_5 _ _ _ next]; exact inner
    | false =>
      rw [List.cons_append, scan.eq_4 _ _ _ next]
      simp only [Bool.not_false] at inner
      rw [inner]
      rfl
  | case4 quoted c u _ hc ih =>
    have hc' : c ≠ '\'' := hc
    have inner := ih (by rwa [quotedAfter_cons_of_ne hc'] at closed)
      (fun d hd => bare d (mem_unquotedFrom_cons_of_ne hc' hd))
      (apart.of_cons fun h => absurd h hc')
    cases quoted with
    | true => simp [scan, hc', inner]
    | false => simp [scan, hc', bare c (by simp [unquotedFrom]), inner]

theorem scan_true_eq_none (h : EvenRuns cs) : scan ends mark? true cs = none := by
  fun_induction halveQuotes cs with
  | case1 => rfl
  | case2 cs ih => simp [scan, ih h.of_pair]
  | case3 cs single => exact absurd h (not_evenRuns_single (head?_ne_of_not_cons single))
  | case4 c cs _ hc ih =>
    have hc' : c ≠ '\'' := hc
    simp [scan, ih (h.of_cons hc')]

theorem scan_of_stops (h : Stops ends rest) : scan ends mark? false rest = some ([], rest) := by
  cases rest with
  | nil => rfl
  | cons c rest =>
    rcases h c rfl with ⟨hc, stop⟩ | ⟨w, eq, next, even⟩
    · simp [scan, hc, stop]
    · rw [eq, scan.eq_4 _ _ _ (not_cons_of_head?_ne next), scan_true_eq_none even]
      rfl

/-- The characters that a glyph shows. -/
def chars (shown : μ → String) : Glyph μ → List Char
  | literal c => [c]
  | mark m => (shown m).toList

theorem flatMap_chars_resolve (h : ∀ c m, mark? c = some m → (shown m).toList = [c]) :
    (resolve mark? quoted cs).flatMap (chars shown) = halveQuotes cs := by
  fun_induction resolve mark? quoted cs with
  | case1 => rfl
  | case2 quoted cs ih => simp [chars, halveQuotes, ih]
  | case3 quoted cs single ih => rw [ih, halveQuotes.eq_3 _ single]
  | case4 quoted c cs _ hc ih =>
    have glyph : chars shown (if quoted then .literal c else ofBare mark? c) = [c] := by
      cases quoted with
      | true => rfl
      | false =>
        unfold ofBare
        cases found : mark? c with
        | none => rfl
        | some m => exact h c m found
    rw [List.flatMap_cons, glyph, ih, halveQuotes.eq_4 _ _ (fun _ eq => absurd eq hc) hc]
    rfl

theorem resolve_of_bare (h : ∀ c ∈ unquotedFrom quoted cs, mark? c = none) :
    resolve mark? quoted cs = (halveQuotes cs).map .literal := by
  fun_induction resolve mark? quoted cs with
  | case1 => rfl
  | case2 quoted cs ih =>
    rw [ih fun c hc => h c (mem_unquotedFrom_cons (mem_unquotedFrom_cons (by simpa using hc)))]
    rfl
  | case3 quoted cs single ih =>
    rw [ih fun c hc => h c (mem_unquotedFrom_cons (by simpa using hc)), halveQuotes.eq_3 _ single]
  | case4 quoted c cs _ hc ih =>
    have hc' : c ≠ '\'' := hc
    rw [ih fun d hd => h d (mem_unquotedFrom_cons_of_ne hc' hd),
      halveQuotes.eq_4 _ _ (fun _ eq => absurd eq hc') hc']
    cases quoted with
    | true => rfl
    | false => simp [ofBare, h c (by simp [unquotedFrom])]

end Glyph

namespace Segment

open Glyph

theorem read_append (closed : quotedAfter false u = false) (bare : ∀ c ∈ unquoted u, ends c = false)
    (apart : PairsApart u rest) (stop : Stops ends rest) :
    read ends mark? (u ++ rest) = (ofGlyphs (resolve mark? false u), rest) := by
  simp [read, scan_append closed bare apart, scan_of_stops stop]

def isText : Segment μ → Bool
  | text _ => true
  | mark _ => false

/-- No text is empty and no two texts are neighbours. -/
structure Normal (segments : List (Segment μ)) : Prop where
  text_ne_empty : ∀ s, text s ∈ segments → s ≠ ""
  apart : segments.IsChain fun a b => ¬ (a.isText ∧ b.isText)

/-- The glyphs that segments are made of. -/
def glyphs : List (Segment μ) → List (Glyph μ)
  | [] => []
  | text s :: segments => s.toList.map .literal ++ glyphs segments
  | mark m :: segments => .mark m :: glyphs segments

theorem glyphs_append (as bs : List (Segment μ)) : glyphs (as ++ bs) = glyphs as ++ glyphs bs := by
  induction as with
  | nil => rfl
  | cons segment as ih => cases segment <;> simp [glyphs, ih]

theorem glyphs_cons (segment : Segment μ) (segments : List (Segment μ)) :
    glyphs (segment :: segments) = glyphs [segment] ++ glyphs segments :=
  glyphs_append [segment] segments

theorem glyphs_ofGlyphs (gs : List (Glyph μ)) : glyphs (ofGlyphs gs) = gs := by
  fun_induction ofGlyphs gs with
  | case1 => rfl
  | case2 m gs ih => simp [glyphs, ih]
  | case3 c gs s segments eq ih => simpa [eq, glyphs] using ih
  | case4 c gs _ ih => simpa [glyphs] using ih

theorem normal_nil : Normal ([] : List (Segment μ)) := ⟨by simp, .nil⟩

theorem normal_mark_cons {m : μ} {segments : List (Segment μ)} :
    Normal (mark m :: segments) ↔ Normal segments := by
  constructor
  · rintro ⟨texts, apart⟩
    exact ⟨fun s hs => texts s (List.mem_cons_of_mem _ hs), apart.tail⟩
  · rintro ⟨texts, apart⟩
    exact ⟨by simpa using texts, apart.cons fun _ _ h => Bool.false_ne_true h.1⟩

theorem normal_text_cons {s : String} {segments : List (Segment μ)} :
    Normal (text s :: segments) ↔
      s ≠ "" ∧ (∀ next ∈ segments.head?, next.isText = false) ∧ Normal segments := by
  constructor
  · rintro ⟨texts, apart⟩
    refine ⟨texts s List.mem_cons_self, fun next hn => ?_, ?_, apart.tail⟩
    · exact Bool.eq_false_iff.mpr fun h => apart.rel_head? hn ⟨rfl, h⟩
    · exact fun s hs => texts s (List.mem_cons_of_mem _ hs)
  · rintro ⟨hs, next, texts, apart⟩
    refine ⟨?_, apart.cons fun b hb h => Bool.false_ne_true ((next b hb).symm.trans h.2)⟩
    intro t ht
    rcases List.mem_cons.mp ht with ht | ht
    · obtain rfl := Segment.text.inj ht
      exact hs
    · exact texts t ht

theorem normal_ofGlyphs (gs : List (Glyph μ)) : Normal (ofGlyphs gs) := by
  fun_induction ofGlyphs gs with
  | case1 => exact normal_nil
  | case2 m gs ih => exact normal_mark_cons.mpr ih
  | case3 c gs s segments eq ih =>
    rw [eq, normal_text_cons] at ih
    exact normal_text_cons.mpr ⟨by simp [← String.toList_inj], ih.2⟩
  | case4 c gs other ih =>
    refine normal_text_cons.mpr ⟨by simp [← String.toList_inj], fun next hn => ?_, ih⟩
    obtain ⟨segments, eq⟩ := List.head?_eq_some_iff.mp hn
    cases next with
    | text s => exact absurd eq (other s segments)
    | mark m => rfl

/-- Literal characters before a mark, or before nothing, form one text. -/
theorem ofGlyphs_literals {gs : List (Glyph μ)} (hcs : cs ≠ [])
    (next : ∀ segment ∈ (ofGlyphs gs).head?, segment.isText = false) :
    ofGlyphs (cs.map .literal ++ gs) = text (String.ofList cs) :: ofGlyphs gs := by
  induction cs with
  | nil => exact absurd rfl hcs
  | cons c cs ih =>
    rw [List.map_cons, List.cons_append, ofGlyphs]
    cases cs with
    | nil =>
      rw [List.map_nil, List.nil_append]
      cases eq : ofGlyphs gs with
      | nil => rfl
      | cons segment segments =>
        cases segment with
        | mark m => rfl
        | text s => exact absurd (next (text s) (by rw [eq]; rfl)) Bool.noConfusion
    | cons d cs =>
      rw [ih (List.cons_ne_nil d cs), @String.ofList_cons c]

theorem ofGlyphs_glyphs {segments : List (Segment μ)} (h : Normal segments) :
    ofGlyphs (glyphs segments) = segments := by
  induction segments with
  | nil => rfl
  | cons segment segments ih =>
    cases segment with
    | mark m => rw [glyphs, ofGlyphs, ih (normal_mark_cons.mp h)]
    | text s =>
      obtain ⟨hs, next, h⟩ := normal_text_cons.mp h
      rw [glyphs, ofGlyphs_literals (by simpa using hs) (by rwa [ih h]), ih h, String.ofList_toList]

theorem toList_render (segments : List (Segment μ)) :
    (render shown segments).toList = (glyphs segments).flatMap (chars shown) := by
  induction segments with
  | nil => rfl
  | cons segment segments ih =>
    cases segment <;> simp [render, glyphs, chars, ih, List.flatMap_map]

/-- What segments show is the text they were read from, with its runs of quotes halved. -/
theorem toList_render_ofGlyphs_resolve (h : ∀ c m, mark? c = some m → (shown m).toList = [c]) :
    (render shown (ofGlyphs (resolve mark? quoted cs))).toList = halveQuotes cs := by
  rw [toList_render, glyphs_ofGlyphs, flatMap_chars_resolve h]

/-- How a text is cut into segments: a mark stands for one unquoted character, and a text for
what is between two marks. -/
inductive Spells (mark? : Char → Option μ) : List Char → List (Segment μ) → Prop
  | nil : Spells mark? [] []
  | mark {c : Char} {m : μ} {cs : List Char} {segments : List (Segment μ)} :
      mark? c = some m → Spells mark? cs segments → Spells mark? (c :: cs) (mark m :: segments)
  | text {u cs : List Char} {segments : List (Segment μ)} :
      Even (u.count '\'') → (∀ c ∈ unquoted u, mark? c = none) → Spells mark? cs segments →
      Spells mark? (u ++ cs) (text (String.ofList (halveQuotes u)) :: segments)

theorem Spells.literals {gs : List (Glyph μ)} (even : Even (u.count '\''))
    (bare : ∀ c ∈ unquoted u, mark? c = none) (h : Spells mark? cs (ofGlyphs gs))
    (next : ∀ segment ∈ (ofGlyphs gs).head?, segment.isText = false) :
    Spells mark? (u ++ cs) (ofGlyphs ((halveQuotes u).map .literal ++ gs)) := by
  cases u with
  | nil => exact h
  | cons c u =>
    rw [ofGlyphs_literals (halveQuotes_ne_nil even (List.cons_ne_nil c u)) next]
    exact .text even bare h

theorem spells_ofGlyphs_resolve (quote : mark? '\'' = none) (even : Even (u.count '\'')) :
    Spells mark? u (ofGlyphs (resolve mark? false u)) := by
  induction k : u.length using Nat.strong_induction_on generalizing u with
  | _ k ih =>
    -- the text up to the first mark is literal
    obtain ⟨a, v, rfl, bare, next⟩ := exists_unquoted_cut (fun c => (mark? c).isSome) false u
    have bare' : ∀ c ∈ unquoted a, mark? c = none := by simpa using bare
    cases v with
    | nil =>
      rw [List.append_nil] at even ⊢
      have := @Spells.literals μ mark? [] a [] even bare' .nil (by simp [ofGlyphs])
      simpa [resolve_of_bare bare'] using this
    | cons c v =>
      obtain ⟨closed, isMark⟩ := next c rfl
      obtain ⟨m, hm⟩ := Option.isSome_iff_exists.mp isMark
      have hc : c ≠ '\'' := by rintro rfl; simp [quote] at hm
      have evenBefore : Even (a.count '\'') := quotedAfter_eq_self_iff.mp closed
      have evenAfter : Even (v.count '\'') := by
        rw [List.count_append, List.count_cons_of_ne hc, Nat.even_add] at even
        exact even.mp evenBefore
      have inner := ih v.length (by simp at k; omega) evenAfter rfl
      rw [resolve_append (.of_head?_ne (by simpa using hc)), closed, resolve_cons hc,
        resolve_of_bare bare']
      have glyph : ofBare mark? c = .mark m := by simp [ofBare, hm]
      simp only [Bool.false_eq_true, if_false, glyph]
      exact .literals evenBefore bare' (.mark hm inner) (by simp [ofGlyphs, isText])

end Segment

end DecimalPattern
