import DecimalPattern.Proofs.Format.Pieces
import DecimalPattern.Proofs.Layout.Separators

/-! # Digits and the length of a pattern

Every digit that a layout counts has a character of the pattern, so that a short pattern has small
bounds.
-/

namespace DecimalPattern

variable {p source : String} {F : NumberFormat} {c : List Char} {core : Core} {s : NumberSection}
  {negative : Option NumberSection} {n : ℕ}

/-! ## Texts of cores -/

theorem length_integerText_add_le (c : List Char) :
    (integerText c).length + (fractionText c).length ≤ c.length := by
  have mantissa := (List.takeWhile_prefix (p := (· != 'E')) (l := c)).length_le
  have parts := congrArg List.length
    (@List.takeWhile_append_dropWhile _ (· != '.') (mantissaText c))
  rw [List.length_append] at parts
  rw [integerText, fractionText, List.length_tail]
  change (mantissaText c).length ≤ c.length at mantissa
  omega

namespace Layout

theorem digitCount_le_length (tokens : List Token) : digitCount tokens ≤ tokens.length :=
  List.countP_le_length

theorem significantBounds_snd_le (tokens : List Token) :
    (significantBounds tokens).2 ≤ max 1 tokens.length := by
  have run : (significantRun tokens).length ≤ tokens.length := (List.dropWhile_suffix _).length_le
  have digits := digitCount_le_length (significantRun tokens)
  rw [significantBounds_eq]
  omega

/-- The numbers of digits that a layout counts are below a limit. -/
structure CountsBelow (layout : Layout) (limit : ℕ) : Prop where
  fraction : layout.fractionMax < limit
  integer : ∀ most ∈ layout.integerMax, most + layout.fractionMax < limit
  significant : ∀ most ∈ layout.significantMax, most < limit

theorem CountsBelow.mono {layout : Layout} {limit : ℕ} (h : layout.CountsBelow n)
    (le : n ≤ limit) : layout.CountsBelow limit where
  fraction := Nat.lt_of_lt_of_le h.fraction le
  integer most mem := Nat.lt_of_lt_of_le (h.integer most mem) le
  significant most mem := Nat.lt_of_lt_of_le (h.significant most mem) le

/-- The upper bounds of a section count characters of its core. -/
theorem countsBelow_ofSections (text : CoreText c s.core) :
    (ofSections source s negative).CountsBelow (c.length + 3) := by
  have length := length_integerText_add_le c
  rw [text.run_integer.length_eq, text.run_fraction.length_eq] at length
  have integer := digitCount_le_length s.core.parts.integer
  have fraction := digitCount_le_length s.core.parts.fraction
  have significant := significantBounds_snd_le s.core.parts.integer
  constructor
  case fraction =>
    simp only [ofSections]
    split_ifs <;> omega
  case integer =>
    intro most bound
    simp only [ofSections, Option.mem_def] at bound ⊢
    split_ifs at bound ⊢ with scientific counted
    all_goals
      obtain rfl := Option.some.inj bound
      omega
  case significant =>
    intro most bound
    simp only [ofSections, Option.mem_def] at bound
    split_ifs at bound
    obtain rfl := Option.some.inj bound
    omega

end Layout

/-! ## Formats -/

theorem countsBelow_layoutFor (h : NumberFormat.compile p = .ok F) (v : Binary64) :
    (F.layoutFor v).CountsBelow (max p.length Pattern.defaultSource.length + 3) := by
  obtain ⟨P, source, s, negative, parsed, mem, eq⟩ := exists_section_layoutFor h v
  obtain ⟨u, text, rfl, length⟩ :=
    exists_text_of_mem_of_length parsed (P.mem_numberSections_of_checked mem)
  obtain ⟨a, c, b, core, parts⟩ := exists_sectionParts u
  have whole := congrArg List.length parts.whole
  rw [List.length_append, List.length_append] at whole
  have isCore : CoreText c (NumberSection.ofText u).core := by
    rw [parts.ofText_eq text]
    exact parts.text
  rw [eq]
  exact (Layout.countsBelow_ofSections isCore).mono (by omega)

end DecimalPattern
