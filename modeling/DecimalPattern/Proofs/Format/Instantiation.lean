import DecimalPattern.Proofs.Format.Range
import DecimalPattern.Proofs.Layout.LongPatterns

/-! # Formatting is instantiation

The text of a number is a template, given by the format and the number, in which the names of
symbols are replaced by those of a locale. No symbol has a say in the digits, in the groups or in
whether there is a text, whatever its characters are.
-/

namespace DecimalPattern

-- Powers of natural numbers are the built-in ones, also beside the monoids of algebra.
attribute [local instance (2000)] instPowNat

variable {p : String} {F : NumberFormat}

/-- A number is written by one list of pieces under all symbols. There is one exactly where no
number on the way leaves the 32-bit range, which short patterns rule out. -/
theorem format?_eq_renderAll (h : NumberFormat.compile p = .ok F) (v : Binary64) :
    ∃ pieces : Option (List Piece),
      (∀ symbols, F.format? symbols v = pieces.map (Piece.renderAll symbols)) ∧
      (∀ shown ∈ pieces, (F.layoutFor v).SymbolUse v shown) ∧
      (pieces.isSome ↔ (F.layoutFor v).InRange (v.scale (F.layoutFor v).scale)) ∧
      (p.length < 2 ^ (30 : ℕ) → pieces.isSome) := by
  have isSome : (F.pieces? v).isSome ↔ (F.layoutFor v).InRange (v.scale (F.layoutFor v).scale) := by
    rw [NumberFormat.pieces?, Option.isSome_map, isSome_bodyPieces?_layoutFor h]
  refine ⟨F.pieces? v, fun symbols => F.format?_eq_map symbols v, fun shown mem => ?_, isSome,
    fun short => isSome.mpr (inRange_of_short h short v _)⟩
  obtain ⟨body, eq, rfl⟩ := Option.map_eq_some_iff.mp mem
  exact (Layout.body_of_bodyPieces? eq).symbolUse (scale_layoutFor_ne_zero h v)

theorem format?_eq_renderAll_of_exponential_zero :
    let P := Pattern.ofTexts "#,##0.0#;;@@#E+00%" "#,##0.0#".toList [[], "@@#E+00%".toList]
    let F := NumberFormat.ofSections P
    NumberFormat.compile "#,##0.0#;;@@#E+00%" = .ok F ∧
      ∃ pieces, (∀ symbols, F.format? symbols (.signed true .zero) =
          some (Piece.renderAll symbols pieces)) ∧
        (F.layoutFor (.signed true .zero)).SymbolUse (.signed true .zero) pieces ∧
        pieces.count (.symbol .exponentSymbol) = 1 := by
  intro P F
  have parsed : Pattern.parse "#,##0.0#;;@@#E+00%" = .ok P :=
    Pattern.parse_eq_ok (by decide) (by decide) (by decide)
  have compiled : NumberFormat.compile "#,##0.0#;;@@#E+00%" = .ok F :=
    compile_eq_ok_iff.mpr ⟨P, parsed, by decide, rfl⟩
  obtain ⟨pieces, rendered, use, -, short⟩ := format?_eq_renderAll compiled (.signed true .zero)
  obtain ⟨pieces, rfl⟩ := Option.isSome_iff_exists.mp (short (by decide))
  have use := use pieces rfl
  exact ⟨compiled, pieces, rendered, use, use.exponent.trans (if_pos (by decide +kernel))⟩

/-- A bound on the integer digits that wraps to zero leaves ten without a template. -/
theorem format?_of_wrapped_bound :
    let F := NumberFormat.ofLayout (hashLayout (2 ^ (32 : ℕ) - 1))
    let v := Binary64.signed false (.ofNat 10)
    NumberFormat.compile (String.ofList (hashes (2 ^ (32 : ℕ) - 1))) = .ok F ∧ F.zero = none ∧
      F.layout.integerMax = some (2 ^ (32 : ℕ)) ∧ F.layout.integerMin = 1 ∧
      ¬ ∃ pieces, ∀ symbols, F.format? symbols v = some (Piece.renderAll symbols pieces) := by
  intro F v
  refine ⟨compile_hashes _, rfl, rfl, rfl, ?_⟩
  rintro ⟨pieces, rendered⟩
  have none : F.pieces? v = none := by decide +kernel
  have text := rendered .english
  rw [F.format?_eq_map, none] at text
  cases text

end DecimalPattern
