import DecimalPattern.Proofs.Layout.Separators

/-! # Patterns of any length

A core is a pattern by itself, with no text around the number. Any number of `#` before an exponent
gives a bound of that size on the integer digits, and any number after the point one on the
fraction.
-/

namespace DecimalPattern

variable {c : List Char} {core : Core}

/-! ## Patterns without affixes -/

/-- The section of a core alone. -/
def NumberSection.ofCore (c : List Char) (core : Core) : NumberSection :=
  ⟨String.ofList c, [], core, []⟩

namespace CoreText

theorem sectionParts (h : CoreText c core) : SectionParts c [] c [] core where
  whole := by simp
  bare := by simp
  next x hx := by
    rw [List.append_nil] at hx
    exact ⟨rfl, h.startsCore_of_head? x hx⟩
  text := h
  read := Core.read_of_text h (by simp [Core.Ends])

theorem ofText_eq (h : CoreText c core) : NumberSection.ofText c = .ofCore c core :=
  h.sectionParts.ofText_eq h.sectionText

theorem compile_eq (h : CoreText c core) (ne : c ≠ [])
    (keeps : CoreRule.firstBroken? core = none) :
    NumberFormat.compile (String.ofList c) =
      .ok (.ofLayout (.ofSections (String.ofList c) (.ofCore c core) none)) := by
  refine compile_eq_ok_iff.mpr ⟨_, h.sectionText.parse_eq_ok ne, ?_, ?_⟩
  · simp [Pattern.checkedSections, Pattern.ofTexts, h.ofText_eq, NumberSection.ofCore, keeps]
  · rw [← h.ofText_eq]
    rfl

end CoreText

theorem forall₂_replicate {α β : Type*} {r : α → β → Prop} {a : α} {b : β} (h : r a b) (n : ℕ) :
    List.Forall₂ r (List.replicate n a) (List.replicate n b) := by
  induction n with
  | zero => exact .nil
  | succ n ih => exact .cons h ih

/-! ## Integer digits -/

/-- A number of `#`, a zero and an exponent. -/
def hashes (n : ℕ) : List Char := List.replicate n '#' ++ "0E0".toList

def hashDigits (n : ℕ) : List Token :=
  List.replicate n (.digit .optional) ++ [.digit (.required '0')]

def hashCore (n : ℕ) : Core := hashDigits n ++ [.exponent ⟨false, 1⟩]

/-- The layout of numbers in steps of as many digits. -/
def hashLayout (n : ℕ) : Layout where
  source := String.ofList (hashes n)
  significance := false
  exponential := true
  grouping := false
  exponentPlus := false
  literal := false
  integerMin := 1
  integerMax := some (n + 1)
  fractionMin := 0
  fractionMax := 0
  significantMin := 1
  significantMax := none
  exponentMin := 1
  primaryGroup := 0
  secondaryGroup := 0
  positive := ⟨"", ""⟩
  negative := ⟨"-", ""⟩
  pad := '0'
  scale := 1

theorem coreText_hashes (n : ℕ) : CoreText (hashes n) (hashCore n) := by
  have run : List.Forall₂ RunChar (List.replicate n '#' ++ ['0']) (hashDigits n) :=
    List.rel_append (forall₂_replicate .optional n) (.cons (.required rfl) .nil)
  have eq : hashes n = (List.replicate n '#' ++ ['0']) ++ ['E', '0'] := by simp [hashes]
  rw [eq]
  exact .exponent (.integer run) (by simp) (.bare (List.forall_mem_singleton.mpr rfl))

theorem bare_hashDigits (n : ℕ) : ∀ t ∈ hashDigits n,
    (t != .point) = true ∧ t.isGrouping = false ∧ t.isSignificant = false := by
  intro t ht
  rcases List.mem_append.mp ht with ht | ht
  · rw [List.eq_of_mem_replicate ht]
    exact ⟨rfl, rfl, rfl⟩
  · rw [List.mem_singleton.mp ht]
    exact ⟨rfl, rfl, rfl⟩

theorem parts_hashCore (n : ℕ) : (hashCore n).parts = ⟨hashDigits n, none, some ⟨false, 1⟩⟩ := by
  have bare := fun t ht => (bare_hashDigits n t ht).1
  have exponent : (hashCore n).exponent? = some ⟨false, 1⟩ := Core.exponent?_append_exponent _ _
  have mantissa : (hashCore n).mantissa = hashDigits n := by
    rw [Core.mantissa, exponent]
    simp [hashCore]
  rw [Core.parts, mantissa, exponent, List.takeWhile_eq_self_iff.mpr bare,
    List.dropWhile_eq_nil_iff.mpr bare]
  rfl

theorem firstBroken?_hashCore (n : ℕ) : CoreRule.firstBroken? (hashCore n) = none := by
  rw [CoreRule.firstBroken?, parts_hashCore]
  simp [CoreRule.all, CoreRule.brokenBy, hashDigits, Core.Parts.hasGrouping, Core.Parts.fraction,
    Core.Parts.hasSignificance, CoreRule.follows, Token.isGrouping, Token.isSignificant,
    Token.isRequired, Token.isOptional]

theorem ofSections_hashes (n : ℕ) :
    Layout.ofSections (String.ofList (hashes n)) (.ofCore (hashes n) (hashCore n)) none =
      hashLayout n := by
  have bare := bare_hashDigits n
  have sizes := Layout.groupSizes_of_ungrouped fun t ht => (bare t ht).2.1
  have significance :
      Core.Parts.hasSignificance ⟨hashDigits n, none, some ⟨false, 1⟩⟩ = false := by
    simpa [Core.Parts.hasSignificance, Core.Parts.fraction] using fun t ht => (bare t ht).2.2
  obtain ⟨digits, required, nonempty⟩ : Layout.digitCount (hashDigits n) = n + 1 ∧
      Layout.requiredCount (hashDigits n) = 1 ∧ (hashDigits n).isEmpty = false := by
    simp [Layout.digitCount, Layout.requiredCount, hashDigits, Token.isDigit, Token.isRequired,
      List.countP_replicate]
  have shown : (hashCore n).isEmpty = false := by simp [hashCore]
  simp only [Layout.ofSections, NumberSection.ofCore, parts_hashCore, sizes, significance, digits,
    required, nonempty, NumberSection.isLiteral, shown]
  rfl

theorem compile_hashes (n : ℕ) :
    NumberFormat.compile (String.ofList (hashes n)) = .ok (.ofLayout (hashLayout n)) := by
  have ne : hashes n ≠ [] := by simp [hashes]
  rw [(coreText_hashes n).compile_eq ne (firstBroken?_hashCore n), ofSections_hashes]

/-! ## Places -/

/-- A zero and a number of `#` after the point. -/
def pointHashes (n : ℕ) : List Char := ['0'] ++ '.' :: List.replicate n '#'

def pointHashCore (n : ℕ) : Core :=
  [.digit (.required '0')] ++ .point :: List.replicate n (.digit .optional)

theorem mantissaText_pointHashes (n : ℕ) : MantissaText (pointHashes n) (pointHashCore n) :=
  .fraction (.cons (.required rfl) .nil) (forall₂_replicate .optional n)

theorem parts_pointHashCore (n : ℕ) : (pointHashCore n).parts =
    ⟨[.digit (.required '0')], some (List.replicate n (.digit .optional)), none⟩ := by
  have exponent := (mantissaText_pointHashes n).exponent?_eq_none
  have mantissa : (pointHashCore n).mantissa = pointHashCore n := by
    rw [Core.mantissa, exponent]
    rfl
  rw [Core.parts, mantissa, exponent]
  rfl

theorem exists_compile_pointHashes (n : ℕ) : ∃ layout,
    NumberFormat.compile (String.ofList (pointHashes n)) = .ok (.ofLayout layout) ∧
      layout.literal = false ∧ layout.exponential = false ∧ layout.significance = false ∧
      layout.fractionMax = n ∧ layout.scale = 1 := by
  have keeps : CoreRule.firstBroken? (pointHashCore n) = none := by
    rw [CoreRule.firstBroken?, parts_pointHashCore]
    simp [CoreRule.all, CoreRule.brokenBy, Core.Parts.hasSignificance, Core.Parts.fraction,
      CoreRule.follows, Token.isSignificant, Token.isRequired, Token.isOptional]
  have text := CoreText.mantissa (mantissaText_pointHashes n)
  refine ⟨_, text.compile_eq (by simp [pointHashes]) keeps, ?_⟩
  have shown : (pointHashCore n).isEmpty = false := rfl
  have places : Layout.digitCount (List.replicate n (.digit .optional)) = n := by
    simp [Layout.digitCount, List.countP_replicate, Token.isDigit]
  have bare : Core.Parts.hasSignificance
      ⟨[.digit (.required '0')], some (List.replicate n (.digit .optional)), none⟩ = false := by
    simp [Core.Parts.hasSignificance, Core.Parts.fraction, Token.isSignificant]
  simp only [Layout.ofSections, NumberSection.ofCore, parts_pointHashCore, bare,
    NumberSection.isLiteral, shown]
  exact ⟨trivial, rfl, trivial, places, rfl⟩

end DecimalPattern
