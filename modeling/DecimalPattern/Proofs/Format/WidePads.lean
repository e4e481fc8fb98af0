import DecimalPattern.Proofs.Format.FixedDigits

/-! # Wide pad characters

The pad character of a format may take several bytes. Groups are cut by bytes, and a number has no
text where a cut falls inside a pad character, nor where the number has none with any pad character.
The integer digits are padded by characters and never too short; the fraction is padded by bytes, so
that it is too short where wide pad characters stand for more than one missing digit.
-/

namespace DecimalPattern

-- Powers of natural numbers are the built-in ones, also beside the monoids of algebra.
attribute [local instance (2000)] instPowNat

variable {p : String} {F : NumberFormat} {layout : Layout} {v x : Binary64} {pad : Char}
  {as bs cs ds : List Char} {width size primary secondary units : ℕ}

/-! ## Cuts between characters -/

/-- A cut after so many bytes is inside no character. -/
def CutsAt (cs : List Char) (width : ℕ) : Prop :=
  ∃ front back, front ++ back = cs ∧ byteWidth front = width

theorem takeBytes?_append_eq (front back : List Char) :
    takeBytes? (byteWidth front) (front ++ back) = some (front, back) := by
  induction front with
  | nil => simp [takeBytes?]
  | cons c front ih =>
    obtain ⟨width, eq⟩ : ∃ width, byteWidth (c :: front) = width + 1 :=
      Nat.exists_eq_add_one.mpr (Nat.lt_of_lt_of_le c.utf8Size_pos (Nat.le_add_right _ _))
    have rest : width + 1 - c.utf8Size = byteWidth front := by
      rw [← eq, byteWidth_cons, Nat.add_sub_cancel_left]
    have fits : c.utf8Size ≤ width + 1 := by
      rw [← eq]
      exact Nat.le_add_right _ _
    rw [eq, List.cons_append, takeBytes?, if_pos fits, rest, ih]
    rfl

theorem isSome_takeBytes?_iff : (takeBytes? width cs).isSome ↔ CutsAt cs width := by
  rw [Option.isSome_iff_exists]
  constructor
  · rintro ⟨⟨front, back⟩, cut⟩
    exact ⟨front, back, takeBytes?_append cut, takeBytes?_byteWidth cut⟩
  · rintro ⟨front, back, rfl, rfl⟩
    exact ⟨_, takeBytes?_append_eq front back⟩

theorem byteWidth_eq_zero (h : byteWidth cs = 0) : cs = [] := by
  cases cs with
  | nil => rfl
  | cons c cs =>
    have := c.utf8Size_pos
    rw [byteWidth_cons] at h
    omega

theorem byteWidth_reverse (cs : List Char) : byteWidth cs.reverse = byteWidth cs := by
  induction cs with
  | nil => rfl
  | cons c cs ih =>
    rw [List.reverse_cons, byteWidth_append, ih, byteWidth_cons, byteWidth_cons, byteWidth_nil]
    omega

theorem byteWidth_replicate (n : ℕ) (c : Char) :
    byteWidth (List.replicate n c) = n * c.utf8Size := by
  induction n with
  | zero => rw [List.replicate_zero, byteWidth_nil, Nat.zero_mul]
  | succ n ih => rw [List.replicate_succ, byteWidth_cons, ih, Nat.succ_mul, Nat.add_comm]

/-- Cuts after a part are cuts of what follows it. -/
theorem cutsAt_append : CutsAt (as ++ bs) (byteWidth as + width) ↔ CutsAt bs width := by
  constructor
  · rintro ⟨front, back, eq, bytes⟩
    rcases List.append_eq_append_iff.mp eq with ⟨left, rfl, rfl⟩ | ⟨right, rfl, rfl⟩
    · rw [byteWidth_append] at bytes
      have none : left = [] := byteWidth_eq_zero (by omega)
      subst none
      exact ⟨[], bs, rfl, by simp only [byteWidth_nil] at bytes ⊢; omega⟩
    · rw [byteWidth_append] at bytes
      exact ⟨right, back, rfl, by omega⟩
  · rintro ⟨front, back, rfl, rfl⟩
    exact ⟨as ++ front, back, List.append_assoc .., byteWidth_append ..⟩

theorem Narrow.cutsAt (h : Narrow cs) (le : width ≤ byteWidth cs) : CutsAt cs width := by
  rw [h.byteWidth_eq] at le
  rw [← isSome_takeBytes?_iff, h.takeBytes?_eq le]
  rfl

/-! ## Groups -/

namespace Grouping

theorem isSome_outerGroups?_iff : (outerGroups? size cs).isSome ↔
    ∀ j, (j + 1) * size < byteWidth cs → CutsAt cs ((j + 1) * size) := by
  fun_induction outerGroups? size cs with
  | case1 cs fits group rest cut ih =>
    obtain rfl := takeBytes?_append cut
    obtain rfl := takeBytes?_byteWidth cut
    have next (j : ℕ) : (j + 1 + 1) * byteWidth group =
        byteWidth group + (j + 1) * byteWidth group := by
      rw [Nat.succ_mul (j + 1), Nat.add_comm]
    rw [Option.isSome_map, ih, byteWidth_append]
    constructor
    · rintro inner (_ | j) lt
      · exact ⟨group, rest, rfl, by rw [Nat.zero_add, Nat.one_mul]⟩
      · rw [next] at lt ⊢
        exact cutsAt_append.mpr (inner j (by omega))
    · intro cuts j lt
      rw [← cutsAt_append, ← next]
      apply cuts
      rw [next]
      omega
  | case2 cs fits fails =>
    refine iff_of_false Bool.false_ne_true fun cuts => ?_
    have first := cuts 0 (by rw [Nat.zero_add, Nat.one_mul]; exact fits.2)
    rw [Nat.zero_add, Nat.one_mul, ← isSome_takeBytes?_iff, fails] at first
    exact Bool.false_ne_true first
  | case3 cs stop =>
    refine iff_of_true rfl fun j lt => ?_
    rcases Nat.eq_zero_or_pos size with rfl | pos
    · exact ⟨[], cs, rfl, rfl⟩
    · have least := Nat.le_mul_of_pos_left size j.succ_pos
      exact absurd ⟨pos, Nat.lt_of_le_of_lt least lt⟩ stop

/-- Every cut between two groups is one between two characters, counted from the last. -/
def Cuts (primary secondary : ℕ) (digits : List Char) : Prop :=
  0 < primary → ∀ j, primary + j * secondary < byteWidth digits →
    CutsAt digits.reverse (primary + j * secondary)

theorem isSome_groups?_iff :
    (groups? primary secondary ds).isSome ↔ Cuts primary secondary ds := by
  rw [groups?]
  split_ifs with single
  · refine iff_of_true rfl fun pos j lt => ?_
    omega
  obtain ⟨pos, wide⟩ := not_or.mp single
  rw [← byteWidth_reverse ds, Nat.not_le] at wide
  cases cut : takeBytes? primary ds.reverse with
  | none =>
    refine iff_of_false Bool.false_ne_true fun cuts => ?_
    have first := cuts (Nat.pos_of_ne_zero pos) 0
    rw [Nat.zero_mul, Nat.add_zero, ← isSome_takeBytes?_iff, cut, ← byteWidth_reverse] at first
    exact Bool.false_ne_true (first wide)
  | some parts =>
    obtain ⟨last, rest⟩ := parts
    have whole := takeBytes?_append cut
    obtain rfl := takeBytes?_byteWidth cut
    have outer : ((outerGroups? secondary rest).bind fun groups =>
        some ((last :: groups).map List.reverse).reverse).isSome =
          (outerGroups? secondary rest).isSome := by
      cases outerGroups? secondary rest <;> rfl
    simp only [Option.bind_eq_bind, Option.bind_some, Option.pure_def]
    rw [outer, isSome_outerGroups?_iff, Cuts, ← byteWidth_reverse ds, ← whole, byteWidth_append]
    constructor
    · rintro inner - (_ | j) lt
      · exact ⟨last, rest, rfl, by rw [Nat.zero_mul, Nat.add_zero]⟩
      · exact cutsAt_append.mpr (inner j (by omega))
    · intro cuts j lt
      exact cutsAt_append.mp (cuts (Nat.pos_of_ne_zero pos) (j + 1) (by omega))

theorem Cuts.of_narrow (h : Narrow ds) : Cuts primary secondary ds := by
  intro _ j lt
  have narrow : Narrow ds.reverse := h.of_subset (by simp)
  apply narrow.cutsAt
  rw [byteWidth_reverse]
  exact lt.le

end Grouping

/-! ## Layouts -/

namespace Layout

theorem isSome_positionalPieces?_iff {n : Numeral} : (layout.positionalPieces? n).isSome ↔
    (layout.grouping → Grouping.Cuts layout.primaryGroup layout.secondaryGroup n.integer) := by
  rw [positionalPieces?, Option.isSome_map, integerPieces?]
  split_ifs with grouping
  · rw [Grouping.pieces?, Option.isSome_map, Grouping.isSome_groups?_iff]
    simp [grouping]
  · simp [grouping]

/-- Where fixed notation groups the digits of a number, no cut falls inside a pad character. -/
def PadFits (layout : Layout) (x : Binary64) : Prop :=
  Strategy.select layout x = .fixed → layout.grouping → ∀ n ∈ layout.formatFixed? x,
    Grouping.Cuts layout.primaryGroup layout.secondaryGroup n.integer

theorem padFits_of_narrow (width : layout.pad.utf8Size = 1) : layout.PadFits x :=
  fun _ _ _ run => .of_narrow (layout.narrow_of_formatFixed? width run)

theorem isSome_bodyPieces?_iff :
    (layout.bodyPieces? x).isSome ↔ layout.InRange x ∧ layout.PadFits x := by
  rw [bodyPieces?, inRange_iff, PadFits]
  cases Strategy.select layout x with
  | special | literal => simp
  | exponential => simp
  | significant =>
    -- Significant digits are padded in the fraction only.
    dsimp only
    rw [isSome_bind_positionalPieces? fun n => narrow_of_splitSignificant?,
      isSome_splitSignificant?_iff]
    simp
  | fixed =>
    dsimp only
    rw [← isSome_formatFixed?_iff]
    cases layout.formatFixed? x with
    | none => simp
    | some n => simp [isSome_positionalPieces?_iff]

/-- How many characters fixed notation shows of a number with a pad character of any width. -/
structure PadWidths (layout : Layout) (x : Magnitude) (n : Numeral) : Prop where
  integer : layout.integerMin ≤ n.integer.length
  fraction_bytes : ¬ x.isWhole → layout.fractionMin ≤ byteWidth n.fraction
  /-- A wide pad character makes up for one missing digit only. -/
  fraction : ¬ x.isWhole → (layout.fractionMin ≤ n.fraction.length ↔
    layout.pad.utf8Size = 1 ∨ layout.fractionMin ≤ min layout.fractionMax
      (x.roundHalfEven (placesOfCount layout.fractionMax)).numeral.fraction.length + 1)

theorem integerMin_le_length_fixedInteger (r : Magnitude) :
    layout.integerMin ≤ (layout.fixedInteger r).length := by
  rw [fixedInteger_eq_leftpad]
  split_ifs with hidden
  · exact hidden.2.le
  · rw [List.length_leftpad]
    exact Nat.le_max_left _ _

end Layout

theorem le_byteWidth_padRight (width : ℕ) (pad : Char) (cs : List Char) :
    width ≤ byteWidth (padRight width pad cs) := by
  have missing := Nat.lt_mul_div_succ (width - byteWidth cs + pad.utf8Size - 1) pad.utf8Size_pos
  rw [padRight, byteWidth_append, byteWidth_replicate, Nat.mul_comm]
  rw [Nat.mul_succ] at missing
  have := pad.utf8Size_pos
  omega

theorem le_length_padRight_iff (narrow : Narrow cs) (pad : Char) :
    width ≤ (padRight width pad cs).length ↔ pad.utf8Size = 1 ∨ width ≤ cs.length + 1 := by
  rw [padRight, List.length_append, List.length_replicate, narrow.byteWidth_eq]
  have pos := pad.utf8Size_pos
  have le := pad.utf8Size_le_four
  obtain size | size | size | size : pad.utf8Size = 1 ∨ pad.utf8Size = 2 ∨ pad.utf8Size = 3 ∨
      pad.utf8Size = 4 := by omega
  all_goals
    rw [size]
    omega

theorem Layout.padWidths (layout : Layout) (x : Magnitude) :
    layout.PadWidths x (layout.fixedNumeral x) where
  integer := by
    dsimp only [fixedNumeral]
    exact integerMin_le_length_fixedInteger _
  fraction_bytes fractional := by
    dsimp only [fixedNumeral]
    rw [fixedFraction_eq_padRight, if_neg fractional]
    exact le_byteWidth_padRight _ _ _
  fraction fractional := by
    dsimp only [fixedNumeral]
    rw [fixedFraction_eq_padRight, if_neg fractional, le_length_padRight_iff, List.length_take]
    exact (Magnitude.allDigits_fraction _).narrow.of_subset (List.take_subset _ _)

theorem Layout.WellFormed.withPad (h : layout.WellFormed) :
    Layout.WellFormed { layout with pad } := { h with }

theorem Layout.CountsBelow.withPad {limit : ℕ} (h : layout.CountsBelow limit) :
    Layout.CountsBelow { layout with pad } limit := { h with }

/-! ## Formats -/

namespace NumberFormat

/-- The format with another pad character for numbers. The layout for zero keeps its own. -/
def withPad (F : NumberFormat) (pad : Char) : NumberFormat :=
  { F with layout := { F.layout with pad } }

theorem utf8Size_pad_withPad (h : compile p = .ok F) (width : pad.utf8Size = 1) (v : Binary64) :
    ((F.withPad pad).layoutFor v).pad.utf8Size = 1 := by
  have zero := pad_layoutFor h v
  unfold layoutFor at zero ⊢
  split_ifs at zero ⊢
  · cases own : F.zero with
    | none => rwa [withPad, own]
    | some layout =>
      rw [own] at zero
      rw [withPad, own]
      exact zero ▸ rfl
  · exact width

theorem inRange_withPad (h : compile p = .ok F) (short : p.length < 2 ^ (30 : ℕ)) (pad : Char)
    (v x : Binary64) : ((F.withPad pad).layoutFor v).InRange x := by
  have few := countsBelow_of_short h short v
  have wellFormed := wellFormed_layoutFor h v
  unfold layoutFor at few wellFormed ⊢
  split_ifs at few wellFormed ⊢
  · cases own : F.zero with
    | none =>
      rw [own] at few wellFormed
      rw [withPad, own]
      exact few.withPad.inRange wellFormed.withPad x
    | some layout =>
      rw [own] at few wellFormed
      rw [withPad, own]
      exact few.inRange wellFormed x
  · exact few.withPad.inRange wellFormed.withPad x

theorem isSome_format?_iff_padFits {symbols : Symbols} : (F.format? symbols v).isSome ↔
    (F.layoutFor v).InRange (v.scale (F.layoutFor v).scale) ∧
      (F.layoutFor v).PadFits (v.scale (F.layoutFor v).scale) := by
  rw [format?_eq_map, Option.isSome_map, pieces?, Option.isSome_map, Layout.isSome_bodyPieces?_iff]

end NumberFormat

/-- A number has a text exactly where no number on the way leaves the 32-bit range, as under a short
pattern, and the pad character fits the groups, as every narrow one does. In fixed notation there
are enough integer digits, and enough bytes in the fraction. -/
theorem format?_withPad (h : NumberFormat.compile p = .ok F) (pad : Char) (v : Binary64) :
    let G := F.withPad pad
    let layout := G.layoutFor v
    let scaled := v.scale layout.scale
    (∀ symbols, (G.format? symbols v).isSome ↔ layout.InRange scaled ∧ layout.PadFits scaled) ∧
      (p.length < 2 ^ (30 : ℕ) → layout.InRange scaled) ∧
      (pad.utf8Size = 1 → ∀ symbols, (G.format? symbols v).isSome ↔ layout.InRange scaled) ∧
      ∀ sign units hu, scaled = .signed sign (.finite units hu) → layout.IsFixed →
        ∀ n, layout.formatFixed? scaled = some n → layout.PadWidths (.finite units hu) n ∧
          ∀ symbols text, G.format? symbols v = some text →
            ∃ groups, layout.integerPieces? n.integer = some groups ∧
              shownDigits groups = n.integer ∧
              text = Piece.renderAll symbols (.text (layout.affixes v).before ::
                (groups ++ fractionPieces n.fraction) ++ [.text (layout.affixes v).after]) := by
  intro G layout scaled
  have shown symbols : (G.format? symbols v).isSome ↔
      layout.InRange scaled ∧ layout.PadFits scaled := NumberFormat.isSome_format?_iff_padFits
  refine ⟨shown, fun short => NumberFormat.inRange_withPad h short pad v _,
    fun narrow symbols => ?_, ?_⟩
  · have width : layout.pad.utf8Size = 1 := NumberFormat.utf8Size_pad_withPad h narrow v
    rw [shown]
    exact and_iff_left (Layout.padFits_of_narrow width)
  · intro sign units hu eq fixed n run
    have numeral : n = layout.fixedNumeral (.finite units hu) := by
      rw [eq] at run
      exact (Layout.formatFixed?_eq_some_iff.mp run).2.symm
    refine ⟨numeral ▸ layout.padWidths _, fun symbols text written => ?_⟩
    rw [NumberFormat.format?_eq_map] at written
    obtain ⟨pieces, enclosed, rfl⟩ := Option.map_eq_some_iff.mp written
    obtain ⟨body, positional, rfl⟩ := Option.map_eq_some_iff.mp enclosed
    change layout.bodyPieces? scaled = some body at positional
    have finite : scaled.isFinite := by
      rw [eq]
      rfl
    rw [Layout.bodyPieces?_of_fixed finite fixed.literal fixed.exponential fixed.significance,
      run] at positional
    obtain ⟨groups, cut, rfl⟩ := Option.map_eq_some_iff.mp positional
    exact ⟨groups, cut, (Layout.shownDigits_integerPieces cut).1, rfl⟩

/-- A cut leaves two bytes of a group of three to one pad character. A narrow pad character would
fit as well. -/
theorem format?_withPad_of_two_bytes :
    let F := NumberFormat.ofSections (Pattern.ofTexts "#,000.0" "#,000.0".toList [])
    let G := F.withPad 'é'
    ∃ hu : Representable (3 * 2 ^ (1073 : ℕ)),
      let v := Binary64.signed false (.finite _ hu)
      NumberFormat.compile "#,000.0" = .ok F ∧ v.scale G.layout.scale = v ∧ G.layout.IsFixed ∧
        G.layout.grouping ∧ G.layout.InRange v ∧ G.layout.PadFits v ∧
        G.layout.formatFixed? v = some ⟨['é', 'é', '1'], ['5']⟩ ∧
        G.layout.PadWidths (.finite _ hu) ⟨['é', 'é', '1'], ['5']⟩ ∧
        G.format? .english v = some "é,é1.5" ∧
        ∀ symbols, ((F.withPad '*').format? symbols v).isSome := by
  intro F G
  have compiled : NumberFormat.compile "#,000.0" = .ok F :=
    compile_eq_ok (by decide) (by decide) (by decide) (by decide)
  have fixed : G.layout.IsFixed := ⟨by decide, by decide, by decide⟩
  have hu : Representable (3 * 2 ^ (1073 : ℕ)) := by decide +kernel
  let v := Binary64.signed false (.finite _ hu)
  have layout : G.layoutFor v = G.layout := layoutFor_of_single rfl v
  have scaled : v.scale G.layout.scale = v := Binary64.scale_one false hu
  have text : ∀ hu, G.format? .english (.signed false (.finite (3 * 2 ^ (1073 : ℕ)) hu)) =
      some "é,é1.5" := by decide +kernel
  have run : ∀ hu, G.layout.formatFixed? (.signed false (.finite (3 * 2 ^ (1073 : ℕ)) hu)) =
      some ⟨['é', 'é', '1'], ['5']⟩ := by decide +kernel
  obtain ⟨shown, -, -, widths⟩ := format?_withPad compiled 'é' v
  obtain ⟨-, range, narrow, -⟩ := format?_withPad compiled '*' v
  rw [layout] at shown widths
  rw [scaled] at shown
  obtain ⟨inRange, fits⟩ := (shown .english).mp (by rw [text hu]; rfl)
  have short : "#,000.0".length < 2 ^ (30 : ℕ) := by decide
  exact ⟨hu, compiled, scaled, fixed, rfl, inRange, fits, run hu,
    (widths _ _ hu scaled fixed _ (by rw [scaled]; exact run hu)).1, text hu,
    fun symbols => (narrow rfl symbols).mpr (range short)⟩

/-- The second cut of four pad characters and a digit is inside a pad character. A fraction of three
places with one digit takes a single pad character, which fills two bytes. -/
theorem format?_withPad_of_cut_pad :
    let F := NumberFormat.ofSections (Pattern.ofTexts "00,000" "00,000".toList [])
    let H := NumberFormat.ofSections (Pattern.ofTexts "0.000" "0.000".toList [])
    ∃ (h₁ : Representable (2 ^ (1074 : ℕ))) (h₂ : Representable (2 ^ (1073 : ℕ))),
      let one := Binary64.signed false (.finite _ h₁)
      let half := Binary64.signed false (.finite _ h₂)
      let layout := (H.withPad 'é').layoutFor half
      let n : Numeral := ⟨['0'], ['5', 'é']⟩
      NumberFormat.compile "00,000" = .ok F ∧ NumberFormat.compile "0.000" = .ok H ∧
        (∀ symbols, (F.withPad 'é').format? symbols one = none) ∧
        half.scale layout.scale = half ∧ layout.IsFixed ∧ ¬ half.isWhole ∧
        layout.formatFixed? half = some n ∧ n.fraction.length < layout.fractionMin := by
  intro F H
  have compiled : NumberFormat.compile "00,000" = .ok F :=
    compile_eq_ok (by decide) (by decide) (by decide) (by decide)
  have compiled' : NumberFormat.compile "0.000" = .ok H :=
    compile_eq_ok (by decide) (by decide) (by decide) (by decide)
  have h₁ : Representable (2 ^ (1074 : ℕ)) := by decide +kernel
  have h₂ : Representable (2 ^ (1073 : ℕ)) := by decide +kernel
  have layout (x : Magnitude) :
      (H.withPad 'é').layoutFor (.signed false x) = (H.withPad 'é').layout :=
    layoutFor_of_single rfl _
  have none : ∀ h, (F.withPad 'é').pieces? (.signed false (.finite (2 ^ (1074 : ℕ)) h)) = none := by
    decide +kernel
  have run : ∀ h, (H.withPad 'é').layout.formatFixed?
      (.signed false (.finite (2 ^ (1073 : ℕ)) h)) = some ⟨['0'], ['5', 'é']⟩ := by decide +kernel
  have fractional : ∀ h, ¬ (Binary64.signed false (.finite (2 ^ (1073 : ℕ)) h)).isWhole := by
    decide +kernel
  refine ⟨h₁, h₂, compiled, compiled',
    fun _ => by rw [NumberFormat.format?_eq_map, none h₁]; rfl, ?_⟩
  rw [layout]
  exact ⟨Binary64.scale_one false h₂, ⟨by decide, by decide, by decide⟩, fractional h₂, run h₂,
    by decide⟩

end DecimalPattern
