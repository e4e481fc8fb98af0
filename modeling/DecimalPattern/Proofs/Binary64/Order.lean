import DecimalPattern.Proofs.Binary64.Overflow

/-! # Rounding keeps the order

Every step of rounding at a decimal place keeps the order. The steps are left out where the product
with the power of ten is infinite, and a number for which they are left out is not below any rounded
one.
-/

namespace DecimalPattern

-- Powers of natural numbers are the built-in ones, also beside the monoids of algebra.
attribute [local instance (2000)] instPowNat

namespace Magnitude

variable {a b den f m n s u v units : ℕ} {hf : Representable f} {hs : Representable s}
  {hu : Representable u} {hv : Representable v} {x y z : Magnitude} {places : ℤ}

/-! ## The order of magnitudes -/

/-- Infinity is above all other magnitudes. -/
inductive Le : Magnitude → Magnitude → Prop
  | finite {u v : ℕ} {hu : Representable u} {hv : Representable v} (le : u ≤ v) :
      Le (finite u hu) (finite v hv)
  | infinite (x : Magnitude) : Le x infinite

instance : LE Magnitude := ⟨Le⟩

theorem finite_le_finite : finite u hu ≤ finite v hv ↔ u ≤ v := by
  constructor
  · rintro ⟨le⟩
    exact le
  · exact .finite

theorem le_infinite (x : Magnitude) : x ≤ infinite := .infinite x

theorem not_infinite_le : ¬ infinite ≤ finite u hu := nofun

theorem isFinite_of_le (le : x ≤ y) (finite : y.isFinite) : x.isFinite := by
  cases x with
  | finite => rfl
  | infinite =>
    cases y with
    | finite => exact absurd le not_infinite_le
    | infinite => contradiction

/-! ## Single operations -/

theorem round_mono (pos : 0 < den) (le : a ≤ b) : round a den ≤ round b den := by
  cases eq : round b den with
  | infinite => exact le_infinite _
  | finite v hv =>
    have nearest := nearestUnits_mono_left pos le
    rw [round_eq_finite_iff.mp eq] at nearest
    have hu := (precise_nearestUnits a den).representable (Nat.lt_of_le_of_lt nearest hv.2)
    have rounded : round a den = finite _ hu := round_eq_finite_iff.mpr rfl
    rw [rounded]
    exact finite_le_finite.mpr nearest

/-- A function that does not make infinity smaller keeps the order where it does so for finite
magnitudes. -/
theorem mono_of_finite {g : Magnitude → Magnitude} (top : g infinite = infinite)
    (finite : ∀ u hu v hv, u ≤ v → g (finite u hu) ≤ g (finite v hv)) (le : x ≤ y) :
    g x ≤ g y := by
  cases y with
  | infinite =>
    rw [top]
    exact le_infinite _
  | finite v hv =>
    cases x with
    | infinite => exact absurd le not_infinite_le
    | finite u hu => exact finite u hu v hv (finite_le_finite.mp le)

theorem mul_mono (le : x ≤ y) : x * finite f hf ≤ y * finite f hf := by
  refine mono_of_finite (g := (· * finite f hf)) rfl (fun u hu v hv le => ?_) le
  rw [finite_mul_finite, finite_mul_finite]
  exact round_mono one_pos (Nat.mul_le_mul_right f le)

theorem div_mono (pos : 0 < f) (le : x ≤ y) : x / finite f hf ≤ y / finite f hf := by
  refine mono_of_finite (g := (· / finite f hf)) rfl (fun u hu v hv le => ?_) le
  rw [finite_div_finite, finite_div_finite]
  exact round_mono pos (Nat.mul_le_mul_right one le)

theorem ofNat_mono (le : m ≤ n) : ofNat m ≤ ofNat n := by
  rw [ofNat, ofNat, ofUnits, ofUnits]
  exact round_mono Nat.one_pos (Nat.mul_le_mul_right one le)

theorem nearestWhole_mono (le : m ≤ n) : nearestWhole m ≤ nearestWhole n := by
  have floors : m / one ≤ n / one := Nat.div_le_div_right le
  have first := Nat.div_add_mod m one
  have second := Nat.div_add_mod n one
  have width := tieWidth_lt
  unfold nearestWhole
  rcases floors.eq_or_lt with eq | lt
  · rw [eq] at first ⊢
    split_ifs <;> omega
  · split_ifs <;> omega

theorem nearestInteger_mono (le : x ≤ y) : x.nearestInteger ≤ y.nearestInteger := by
  refine mono_of_finite rfl (fun u hu v hv le => ?_) le
  rw [nearestInteger_eq hu, nearestInteger_eq hv]
  exact ofNat_mono (nearestWhole_mono le)

/-! ## Rounding at a place -/

/-- Rounding at a place whose power of ten is finite. -/
theorem roundHalfEven_of_factor (factor : tenPow places.natAbs = finite f hf) :
    x.roundHalfEven places =
      if places = 0 then x.nearestInteger
      else if places < 0 then (x / finite f hf).nearestInteger * finite f hf
      else if (x * finite f hf).isFinite then (x * finite f hf).nearestInteger / finite f hf
      else x := by
  rw [roundHalfEven, factor]
  rfl

theorem roundHalfEven_of_infinite (factor : tenPow places.natAbs = infinite) (ne : places ≠ 0) :
    x.roundHalfEven places = x := by
  rw [roundHalfEven, factor, if_neg ne]
  rfl

/-- The power of ten of a place is infinite, or finite and at least one. -/
theorem tenPow_cases (n : ℕ) :
    tenPow n = infinite ∨ ∃ f hf, tenPow n = finite f hf ∧ one ≤ f := by
  have large := atLeastOne_tenPow n
  cases eq : tenPow n with
  | infinite => exact .inl rfl
  | finite f hf => exact .inr ⟨f, hf, rfl, large f hf eq⟩

/-- A magnitude whose product is infinite is above what any finite product is rounded to. -/
theorem div_le_of_not_isFinite (pos : 0 < f) (large : ¬ (y * finite f hf).isFinite) :
    (finite s hs).nearestInteger / finite f hf ≤ y := by
  cases y with
  | infinite => exact le_infinite _
  | finite v hv =>
    obtain ⟨w, hw, integer, -⟩ := isFinite_nearestInteger hs
    rw [finite_mul_finite] at large
    have room : w * one ≤ v * f := by
      by_contra lt
      obtain ⟨u, hu, eq, -⟩ := isFinite_round_of_le one_pos hw.1 (Nat.le_of_not_le lt) hw.2
      rw [eq] at large
      exact large rfl
    obtain ⟨u, hu, eq, le⟩ := isFinite_round_of_le pos hv.1 room hv.2
    rw [integer, finite_div_finite, eq]
    exact finite_le_finite.mpr le

theorem roundHalfEven_mono (le : x ≤ y) (places : ℤ) :
    x.roundHalfEven places ≤ y.roundHalfEven places := by
  by_cases zero : places = 0
  · rw [roundHalfEven, roundHalfEven, if_pos zero, if_pos zero]
    exact nearestInteger_mono le
  rcases tenPow_cases places.natAbs with infinite | ⟨f, hf, factor, large⟩
  · rw [roundHalfEven_of_infinite infinite zero, roundHalfEven_of_infinite infinite zero]
    exact le
  have pos : 0 < f := Nat.lt_of_lt_of_le one_pos large
  rw [roundHalfEven_of_factor factor, roundHalfEven_of_factor factor, if_neg zero, if_neg zero]
  by_cases negative : places < 0
  · rw [if_pos negative, if_pos negative]
    exact mul_mono (nearestInteger_mono (div_mono pos le))
  rw [if_neg negative, if_neg negative]
  have products : x * finite f hf ≤ y * finite f hf := mul_mono le
  split_ifs with hx hy hy
  · exact div_mono pos (nearestInteger_mono products)
  · generalize x * finite f hf = product at *
    cases product with
    | infinite => exact absurd hx Bool.false_ne_true
    | finite s hs => exact div_le_of_not_isFinite pos hy
  · exact absurd (isFinite_of_le products hy) hx
  · exact le

theorem round_zero (h : Representable 0) (den : ℕ) : round 0 den = finite 0 h :=
  round_eq_finite_iff.mpr (nearestUnits_zero den)

/-- Zero stays zero. -/
theorem roundHalfEven_zero (h : Representable 0) (places : ℤ) :
    (finite 0 h).roundHalfEven places = finite 0 h := by
  have integer : (finite 0 h).nearestInteger = finite 0 h :=
    nearestInteger_of_whole (Nat.zero_mul one).symm
  by_cases zero : places = 0
  · rw [roundHalfEven, if_pos zero, integer]
  rcases tenPow_cases places.natAbs with infinite | ⟨f, hf, factor, -⟩
  · exact roundHalfEven_of_infinite infinite zero
  have product : finite 0 h * finite f hf = finite 0 h := by
    rw [finite_mul_finite, Nat.zero_mul, round_zero h]
  have quotient : finite 0 h / finite f hf = finite 0 h := by
    rw [finite_div_finite, Nat.zero_mul, round_zero h]
  have finite : (finite 0 h).isFinite := rfl
  rw [roundHalfEven_of_factor factor, if_neg zero, quotient, product, if_pos finite, integer,
    product, quotient, ite_self]

end Magnitude

namespace Binary64

/-! ## The order of numbers -/

/-- Not-a-number is not below or above any number, and the two zeros are equal. -/
inductive Le : Binary64 → Binary64 → Prop
  | positive {x y : Magnitude} (le : x ≤ y) : Le (signed false x) (signed false y)
  | negative {x y : Magnitude} (le : y ≤ x) : Le (signed true x) (signed true y)
  | opposite (x y : Magnitude) : Le (signed true x) (signed false y)
  | zeros {x y : Magnitude} (hx : x.isZero) (hy : y.isZero) : Le (signed false x) (signed true y)

instance : LE Binary64 := ⟨Le⟩

variable {x y : Binary64}

theorem isZero_roundHalfEven {m : Magnitude} (zero : m.isZero) (places : ℤ) :
    (m.roundHalfEven places).isZero := by
  cases m with
  | infinite => contradiction
  | finite units h =>
    obtain rfl : units = 0 := eq_of_beq zero
    rw [Magnitude.roundHalfEven_zero]
    rfl

theorem roundHalfEven_mono (le : x ≤ y) (places : ℤ) :
    x.roundHalfEven places ≤ y.roundHalfEven places := by
  cases le with
  | positive le => exact .positive (Magnitude.roundHalfEven_mono le places)
  | negative le => exact .negative (Magnitude.roundHalfEven_mono le places)
  | opposite => exact .opposite _ _
  | zeros hx hy =>
    exact .zeros (isZero_roundHalfEven hx places) (isZero_roundHalfEven hy places)

theorem roundHalfEven?_eq_some (x : Binary64) {places : Int32} (ne : places ≠ Int32.minValue) :
    x.roundHalfEven? places = some (x.roundHalfEven places.toInt) := if_neg ne

/-- Rounding at one place does not reorder numbers. -/
theorem roundHalfEven?_mono {places : Int32} (ne : places ≠ Int32.minValue) (le : x ≤ y) :
    ∃ r s, x.roundHalfEven? places = some r ∧ y.roundHalfEven? places = some s ∧ r ≤ s :=
  ⟨_, _, x.roundHalfEven?_eq_some ne, y.roundHalfEven?_eq_some ne, roundHalfEven_mono le _⟩

/-- The product of the greater number is infinite, so that only the smaller one is rounded. -/
theorem roundHalfEven?_mono_of_overflow :
    ∃ (hx : Representable (12345 * 2 ^ (1060 : ℕ))) (hy : Representable (2 ^ (2090 : ℕ))),
      let x := signed false (.finite _ hx)
      let y := signed false (.finite _ hy)
      (10 : Int32) ≠ Int32.minValue ∧ x ≤ y ∧ y.roundHalfEven? 10 = some y ∧
        ∃ r s, x.roundHalfEven? 10 = some r ∧ y.roundHalfEven? 10 = some s ∧ r ≤ s := by
  have hx : Representable (12345 * 2 ^ (1060 : ℕ)) := by decide +kernel
  have hy : Representable (2 ^ (2090 : ℕ)) := by decide +kernel
  have le : signed false (.finite _ hx) ≤ signed false (.finite _ hy) :=
    .positive (.finite (by decide +kernel))
  have ne : (10 : Int32) ≠ Int32.minValue := by decide
  have stays : ∀ hy : Representable (2 ^ (2090 : ℕ)),
      (signed false (.finite _ hy)).roundHalfEven? 10 = some (signed false (.finite _ hy)) := by
    decide +kernel
  exact ⟨hx, hy, ne, le, stays hy, roundHalfEven?_mono ne le⟩

end Binary64

end DecimalPattern
