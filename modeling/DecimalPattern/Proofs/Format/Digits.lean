import DecimalPattern.Proofs.Format.Pieces
import DecimalPattern.Proofs.Format.Unbounded

/-! # Digits

A finite magnitude is written with the ten digits alone. Padding with zeros, cutting and grouping
do not bring in other characters.
-/

namespace DecimalPattern

-- Powers of natural numbers are the built-in ones, also beside the monoids of algebra.
attribute [local instance (2000)] instPowNat

variable {cs ds : List Char} {n m width count : ℕ} {pieces : List Piece} {s : String}

theorem placesOfCount_of_lt (small : count < 2 ^ (31 : ℕ)) : placesOfCount count = count := by
  unfold placesOfCount
  rw [Int.bmod_def]
  omega

/-- Every character is one of the ten digits. -/
def AllDigits (cs : List Char) : Prop := ∀ c ∈ cs, c.isDigit

theorem allDigits_digits (n : ℕ) : AllDigits (digits n) :=
  fun _ hc => Nat.isDigit_of_mem_toDigits (by decide) (by decide) hc

theorem length_digits_le_iff (pos : 0 < count) : (digits n).length ≤ count ↔ n < 10 ^ count :=
  Nat.length_toDigits_le_iff (by decide) pos

theorem digits_ne_nil (n : ℕ) : digits n ≠ [] :=
  List.ne_nil_of_length_pos Nat.length_toDigits_pos

theorem digits_append (pos : 0 < n) (lt : m < 10) :
    digits (10 * n + m) = digits n ++ digits m :=
  (Nat.toDigits_append_toDigits (by decide) pos lt).symm

theorem head?_digits_ne (pos : 0 < n) : (digits n).head? ≠ some '0' := by
  induction n using Nat.strongRecOn with
  | ind n ih =>
    rcases Nat.lt_or_ge n 10 with small | large
    · have all : ∀ n < 10, 0 < n → (digits n).head? ≠ some '0' := by decide
      exact all n small pos
    · rw [← Nat.div_add_mod n 10, digits_append (by omega) (Nat.mod_lt _ (by decide)),
        List.head?_append_of_ne_nil _ (digits_ne_nil (n / 10))]
      exact ih (n / 10) (by omega) (by omega)

namespace AllDigits

theorem narrow (h : AllDigits cs) : Narrow cs := fun c hc => utf8Size_of_isDigit (h c hc)

theorem of_subset (h : AllDigits cs) (sub : ds ⊆ cs) : AllDigits ds := fun c hc => h c (sub hc)

theorem append (hc : AllDigits cs) (hd : AllDigits ds) : AllDigits (cs ++ ds) :=
  List.forall_mem_append.mpr ⟨hc, hd⟩

theorem replicate_zero (n : ℕ) : AllDigits (List.replicate n '0') := by
  intro c hc
  rw [List.eq_of_mem_replicate hc]
  rfl

theorem leftpad (h : AllDigits cs) : AllDigits (cs.leftpad width '0') :=
  (replicate_zero _).append h

theorem rightpad (h : AllDigits cs) : AllDigits (cs.rightpad width '0') :=
  h.append (replicate_zero _)

end AllDigits

/-- Padding by bytes is padding by characters where all are one byte wide. -/
theorem padRight_zero (narrow : Narrow cs) : padRight width '0' cs = cs.rightpad width '0' := by
  rw [padRight, narrow.byteWidth_eq, List.rightpad, show '0'.utf8Size = 1 from rfl, Nat.div_one]
  rfl

theorem pad_layoutFor {p : String} {F : NumberFormat} (h : NumberFormat.compile p = .ok F)
    (v : Binary64) : (F.layoutFor v).pad = '0' := by
  obtain ⟨source, s, negative, eq⟩ := exists_layoutFor_eq h v
  rw [eq]
  rfl

theorem layoutFor_of_single {F : NumberFormat} (single : F.zero = none) (v : Binary64) :
    F.layoutFor v = F.layout := by
  rw [NumberFormat.layoutFor, single]
  split <;> rfl

/-! ## Numerals -/

namespace Numeral

def chars (n : Numeral) : List Char := n.integer ++ n.fraction

/-- The digits from the first that is not zero. -/
def leading (n : Numeral) : List Char := (n.integer ++ n.fraction).dropWhile (· == '0')

end Numeral

theorem ofDigitChars_eq_zero (zeros : ds.dropWhile (· == '0') = []) :
    Nat.ofDigitChars 10 ds 0 = 0 := by
  have eq : ds = List.replicate ds.length '0' :=
    List.eq_replicate_of_mem fun c mem => eq_of_beq (List.dropWhile_eq_nil_iff.mp zeros c mem)
  rw [eq, Nat.ofDigitChars_replicate_zero, Nat.mul_zero]

namespace Decimal

theorem allDigits_fractionDigits (d : Decimal) : AllDigits d.fractionDigits := by
  unfold fractionDigits
  split_ifs
  · exact fun c hc => absurd hc List.not_mem_nil
  · exact (allDigits_digits _).leftpad

theorem length_fractionDigits (d : Decimal) : d.fractionDigits.length = d.places := by
  unfold fractionDigits
  split_ifs with zero
  · exact zero.symm
  · have below : d.coefficient % 10 ^ d.places < 10 ^ d.places :=
      Nat.mod_lt _ (Nat.pow_pos (by decide))
    have := (length_digits_le_iff (Nat.pos_of_ne_zero zero)).mpr below
    rw [List.length_leftpad]
    omega

theorem ofDigitChars_fractionDigits (d : Decimal) :
    Nat.ofDigitChars 10 d.fractionDigits 0 = d.coefficient % 10 ^ d.places := by
  rw [fractionDigits]
  split_ifs with whole
  · rw [whole, Nat.pow_zero, Nat.mod_one, Nat.ofDigitChars_nil]
  · rw [List.leftpad, Nat.ofDigitChars_append, Nat.ofDigitChars_replicate_zero, Nat.mul_zero,
      digits, Nat.ofDigitChars_ten_toDigits]

/-- The digits on both sides of the point are those of the coefficient. -/
theorem ofDigitChars_numeral (d : Decimal) :
    Nat.ofDigitChars 10 d.numeral.chars 0 = d.coefficient := by
  rw [Numeral.chars, numeral, Nat.ofDigitChars_append, digits, Nat.ofDigitChars_ten_toDigits,
    Nat.ofDigitChars_eq_ofDigitChars_zero, ofDigitChars_fractionDigits, length_fractionDigits,
    integerPart, Nat.div_add_mod]

theorem leading_ne_nil {d : Decimal} (pos : 0 < d.coefficient) : d.numeral.leading ≠ [] := by
  intro zeros
  have := ofDigitChars_eq_zero zeros
  rw [← Numeral.chars, ofDigitChars_numeral] at this
  omega

end Decimal

namespace Layout

variable {layout : Layout}

theorem fixedInteger_eq_leftpad (layout : Layout) (rounded : Magnitude) :
    layout.fixedInteger rounded =
      if rounded.floor? = some 0 ∧ layout.integerMin = 0 then []
      else
        let digits := rounded.numeral.integer
        let shown :=
          match layout.integerMax with
          | some most => digits.drop (digits.length - most)
          | none => digits
        shown.leftpad layout.integerMin layout.pad := by
  have zero : (Binary64.signed false rounded.floor).isZero ↔ rounded.floor? = some 0 :=
    rounded.isZero_floor_iff
  rw [fixedInteger, padInteger, Binary64.numeral, ← rounded.integer_numeral_floor]
  exact if_congr (and_congr zero Iff.rfl) rfl rfl

theorem fixedFraction_eq_padRight (layout : Layout) (value rounded : Magnitude) :
    layout.fixedFraction value rounded =
      if value.isWhole then List.replicate layout.fractionMin '0'
      else padRight layout.fractionMin layout.pad
        (rounded.numeral.fraction.take layout.fractionMax) := rfl

end Layout

/-- Both sides of the point are made of digits. -/
structure Numeral.IsDecimal (n : Numeral) : Prop where
  integer : AllDigits n.integer
  fraction : AllDigits n.fraction

theorem Decimal.isDecimal_numeral (d : Decimal) : d.numeral.IsDecimal :=
  ⟨allDigits_digits _, d.allDigits_fractionDigits⟩

namespace Magnitude

theorem numeral_finite (h : Representable n) : (finite n h).numeral = (shortest n).numeral := by
  rw [numeral]

theorem coefficient_shortest_pos (h : Representable n) (ne : n ≠ 0) :
    0 < (shortest n).coefficient := by
  refine Nat.pos_of_ne_zero fun zero => ne ?_
  rw [← nearestUnits_shortest h, zero, Nat.zero_mul, nearestUnits_zero]

end Magnitude

namespace Numeral.IsDecimal

variable {numeral : Numeral} {x value : Magnitude} {layout : Layout}

theorem of_isFinite (finite : x.isFinite) : x.numeral.IsDecimal := by
  cases x with
  | infinite => contradiction
  | finite units h =>
    rw [Magnitude.numeral_finite]
    exact (Magnitude.shortest units).isDecimal_numeral

theorem fixedInteger (zero : layout.pad = '0') (h : x.numeral.IsDecimal) :
    AllDigits (layout.fixedInteger x) := by
  rw [Layout.fixedInteger_eq_leftpad]
  split
  · exact fun c hc => absurd hc List.not_mem_nil
  · rw [zero]
    refine AllDigits.leftpad ?_
    split
    · exact h.integer.of_subset (List.drop_subset _ _)
    · exact h.integer

theorem fixedFraction (zero : layout.pad = '0') (value : Magnitude) (h : x.numeral.IsDecimal) :
    AllDigits (layout.fixedFraction value x) := by
  rw [Layout.fixedFraction_eq_padRight]
  split
  · exact .replicate_zero _
  · have shown := h.fraction.of_subset (List.take_subset layout.fractionMax _)
    rw [zero, padRight_zero shown.narrow]
    exact shown.rightpad

theorem fixed (zero : layout.pad = '0')
    (finite : (value.roundHalfEven (placesOfCount layout.fractionMax)).isFinite) :
    (layout.fixedNumeral value).IsDecimal := by
  have rounded := of_isFinite finite
  rw [Layout.fixedNumeral]
  generalize value.roundHalfEven (placesOfCount layout.fractionMax) = x at *
  exact ⟨fixedInteger zero rounded, fixedFraction zero value rounded⟩

theorem significant {most : Option ℕ} (least : ℕ)
    (finite : (value.roundSignificant most).isFinite) :
    (significantNumeral value least most '0').IsDecimal := by
  obtain ⟨integer, fraction⟩ := of_isFinite finite
  exact ⟨integer, fraction.append (.replicate_zero _)⟩

end Numeral.IsDecimal

/-! ## Pieces -/

/-- Every text is made of digits. -/
def DigitPieces (pieces : List Piece) : Prop := ∀ s, .text s ∈ pieces → AllDigits s.toList

namespace DigitPieces

theorem ofDigits (h : AllDigits cs) : DigitPieces [.ofDigits cs] := by
  intro s mem
  obtain rfl : s = String.ofList cs := by simpa [Piece.ofDigits] using mem
  rwa [String.toList_ofList]

theorem symbol (s : Symbol) : DigitPieces [.symbol s] := by
  intro t mem
  simp at mem

theorem append {a b : List Piece} (ha : DigitPieces a) (hb : DigitPieces b) :
    DigitPieces (a ++ b) :=
  fun s mem => (List.mem_append.mp mem).elim (ha s) (hb s)

theorem fractionPieces (h : AllDigits cs) : DigitPieces (fractionPieces cs) := by
  unfold DecimalPattern.fractionPieces
  split_ifs
  · exact fun s mem => absurd mem List.not_mem_nil
  · exact (symbol .decimalSeparator).append (ofDigits h)

end DigitPieces

end DecimalPattern
