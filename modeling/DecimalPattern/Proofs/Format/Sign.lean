import DecimalPattern.Proofs.Format.Range
import DecimalPattern.Proofs.Layout.LongPatterns

/-! # Signs of numbers

The sign of a number decides between the affixes and nothing else. Scaling keeps it, every strategy
takes the absolute value before anything else, and the two zeros have the same affixes.
-/

namespace DecimalPattern

-- Powers of natural numbers are the built-in ones, also beside the monoids of algebra.
attribute [local instance (2000)] instPowNat

variable {p : String} {F : NumberFormat} {v x : Binary64}

namespace Binary64

/-- Above zero, which the positive zero is not. -/
def isPositive : Binary64 → Bool
  | nan => false
  | signed negative m => !negative && !m.isZero

theorem isZero_neg (x : Binary64) : x.neg.isZero = x.isZero := by
  cases x <;> rfl

theorem scale_neg (x : Binary64) (factor : ℕ) : x.neg.scale factor = (x.scale factor).neg := by
  match x with
  | .nan => rfl
  | .signed negative .infinite =>
    simp only [neg, scale]
    split <;> rfl
  | .signed negative (.finite ..) => rfl

theorem isZero_of_isPositive (h : v.isPositive) : v.isZero = false := by
  cases v <;> simp_all [isPositive, isZero]

theorem isNegative_of_isPositive (h : v.isPositive) : v.isNegative = false := by
  cases v <;> simp_all [isPositive, isNegative]

theorem isNegative_neg_of_isPositive (h : v.isPositive) : v.neg.isNegative := by
  cases v <;> simp_all [isPositive, isNegative, neg]

theorem isNegative_of_isZero {m : Magnitude} (h : m.isZero) (negative : Bool) :
    (signed negative m).isNegative = false := by
  simp [isNegative, h]

end Binary64

/-! ## Strategies -/

theorem splitSignificant?_neg (x : Binary64) (least : ℕ) (most : Option ℕ) (pad : Char) :
    splitSignificant? x.neg least most pad = splitSignificant? x least most pad := by
  rw [splitSignificant?, splitSignificant?, x.abs_neg]

namespace Layout

variable (layout : Layout) (symbols : Symbols)

theorem select_neg (x : Binary64) : Strategy.select layout x.neg = Strategy.select layout x := by
  rw [Strategy.select, Strategy.select, x.isFinite_neg]

theorem formatFixed?_neg (x : Binary64) : layout.formatFixed? x.neg = layout.formatFixed? x := by
  rw [formatFixed?, formatFixed?, x.abs_neg]

theorem formatExponential?_neg (x : Binary64) :
    layout.formatExponential? symbols x.neg = layout.formatExponential? symbols x := by
  rw [formatExponential?, formatExponential?, x.abs_neg]

theorem numberText?_neg (x : Binary64) :
    layout.numberText? symbols x.neg = layout.numberText? symbols x := by
  have nan : x.neg = .nan ↔ x = .nan := by cases x <;> simp [Binary64.neg]
  simp only [numberText?, select_neg, formatExponential?_neg, splitSignificant?_neg,
    formatFixed?_neg, nan]

end Layout

namespace NumberFormat

theorem layoutFor_neg (F : NumberFormat) (v : Binary64) : F.layoutFor v.neg = F.layoutFor v := by
  rw [layoutFor, layoutFor, v.isZero_neg]

theorem layoutFor_of_isPositive (F : NumberFormat) (h : v.isPositive) :
    F.layoutFor v = F.layout := by
  rw [layoutFor, Binary64.isZero_of_isPositive h]
  rfl

end NumberFormat

/-! ## Formats -/

/-- A number and its negative share what stands between the affixes. -/
theorem exists_format?_eq (F : NumberFormat) (symbols : Symbols) (v : Binary64) :
    ∃ b : Option String,
      (F.format? symbols v = b.map fun b =>
        ((F.layoutFor v).affixes v).before ++ b ++ ((F.layoutFor v).affixes v).after) ∧
      F.format? symbols v.neg = b.map fun b =>
        ((F.layoutFor v).affixes v.neg).before ++ b ++ ((F.layoutFor v).affixes v.neg).after := by
  refine ⟨_, (F.layoutFor v).format?_eq_map symbols v, ?_⟩
  rw [NumberFormat.format?, Layout.format?_eq_map, F.layoutFor_neg, Binary64.scale_neg,
    Layout.numberText?_neg]

theorem format?_of_isPositive (F : NumberFormat) (symbols : Symbols) (positive : v.isPositive) :
    ∃ b : Option String,
      (F.format? symbols v = b.map fun b =>
        F.layout.positive.before ++ b ++ F.layout.positive.after) ∧
      F.format? symbols v.neg = b.map fun b =>
        F.layout.negative.before ++ b ++ F.layout.negative.after := by
  obtain ⟨b, above, below⟩ := exists_format?_eq F symbols v
  rw [F.layoutFor_of_isPositive positive, Layout.affixes] at above below
  rw [Binary64.isNegative_of_isPositive positive] at above
  rw [Binary64.isNegative_neg_of_isPositive positive] at below
  exact ⟨b, above, below⟩

theorem format?_of_isZero (F : NumberFormat) (symbols : Symbols) {m : Magnitude}
    (zero : m.isZero) : F.format? symbols (.signed true m) = F.format? symbols (.signed false m) := by
  obtain ⟨b, plus, minus⟩ := exists_format?_eq F symbols (.signed false m)
  rw [Layout.affixes, Binary64.isNegative_of_isZero zero] at plus
  rw [Layout.affixes, Binary64.neg, Binary64.isNegative_of_isZero zero] at minus
  exact minus.trans plus.symm

/-- A number above zero and its negative differ in the affixes only, and the zeros in nothing. There
is a text exactly where no number on the way leaves the 32-bit range, as under a short pattern. -/
theorem format?_neg (h : NumberFormat.compile p = .ok F) (symbols : Symbols) :
    (∀ v : Binary64, v.isPositive → ∃ b : Option String,
      (F.format? symbols v = b.map fun b =>
        F.layout.positive.before ++ b ++ F.layout.positive.after) ∧
      F.format? symbols v.neg = b.map fun b =>
        F.layout.negative.before ++ b ++ F.layout.negative.after) ∧
    F.format? symbols (.signed true .zero) = F.format? symbols (.signed false .zero) ∧
    ∀ v, ((F.format? symbols v).isSome ↔
        (F.layoutFor v).InRange (v.scale (F.layoutFor v).scale)) ∧
      (p.length < 2 ^ (30 : ℕ) → (F.format? symbols v).isSome) := by
  refine ⟨fun _ positive => format?_of_isPositive F symbols positive,
    format?_of_isZero F symbols Magnitude.isZero_zero, fun v => ?_⟩
  have isSome := isSome_format?_iff h symbols v
  exact ⟨isSome, fun short => isSome.mpr (inRange_of_short h short v _)⟩

theorem format?_neg_of_literal_zero :
    let P := Pattern.ofTexts "'-'#,##0.0%;(#);'none'" "'-'#,##0.0%".toList
      ["(#)".toList, "'none'".toList]
    NumberFormat.compile "'-'#,##0.0%;(#);'none'" = .ok (.ofSections P) ∧
      (Binary64.signed false .infinite).isPositive ∧
      (∃ b, (NumberFormat.ofSections P).format? .english (.signed false .infinite) =
          some ("-" ++ b ++ "%") ∧
        (NumberFormat.ofSections P).format? .english (.signed true .infinite) =
          some ("(" ++ b ++ ")")) ∧
      ∃ text, (NumberFormat.ofSections P).format? .english (.signed true .zero) = some text ∧
        (NumberFormat.ofSections P).format? .english (.signed false .zero) = some text := by
  intro P
  have parsed : Pattern.parse "'-'#,##0.0%;(#);'none'" = .ok P :=
    Pattern.parse_eq_ok (by decide) (by decide) (by decide)
  have compiled : NumberFormat.compile "'-'#,##0.0%;(#);'none'" = .ok (.ofSections P) :=
    compile_eq_ok_iff.mpr ⟨P, parsed, by decide, rfl⟩
  obtain ⟨signs, zeros, texts⟩ := format?_neg compiled .english
  obtain ⟨b, plus, minus⟩ := signs (.signed false .infinite) rfl
  have shown := (texts (.signed false .infinite)).2 (by decide)
  rw [plus, Option.isSome_map, Option.isSome_iff_exists] at shown
  obtain ⟨b, rfl⟩ := shown
  obtain ⟨text, zero⟩ := Option.isSome_iff_exists.mp ((texts (.signed false .zero)).2 (by decide))
  exact ⟨compiled, rfl, ⟨b, plus, minus⟩, text, zeros.trans zero, zero⟩

/-- A bound on the integer digits that wraps to zero is no step, and neither ten nor its negative
has a text. -/
theorem format?_of_zero_step :
    let F := NumberFormat.ofLayout (hashLayout (2 ^ (32 : ℕ) - 1))
    let v := Binary64.signed false (.ofNat 10)
    NumberFormat.compile (String.ofList (hashes (2 ^ (32 : ℕ) - 1))) = .ok F ∧ v.isPositive ∧
      F.layout.integerMax = some (2 ^ (32 : ℕ)) ∧
      ∀ symbols, F.format? symbols v = none ∧ F.format? symbols v.neg = none := by
  intro F v
  have none : F.pieces? v = none ∧ F.pieces? v.neg = none := by decide +kernel
  refine ⟨compile_hashes _, by decide +kernel, rfl, fun symbols => ?_⟩
  rw [F.format?_eq_map, F.format?_eq_map, none.1, none.2]
  exact ⟨rfl, rfl⟩

end DecimalPattern
