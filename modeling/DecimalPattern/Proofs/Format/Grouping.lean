import DecimalPattern.Proofs.Format.Piece

/-! # Cutting narrow digits

A cut falls between characters wherever every character is one byte wide. The digits of a number
are, also where they are padded with zeros and where an infinite magnitude is spelled out, so that
every grouping of them has a result.
-/

namespace DecimalPattern

variable {cs : List Char} {width : ℕ}

/-- Every character is one byte wide. -/
def Narrow (cs : List Char) : Prop := ∀ c ∈ cs, c.utf8Size = 1

namespace Narrow

theorem byteWidth_eq (h : Narrow cs) : byteWidth cs = cs.length := by
  induction cs with
  | nil => rfl
  | cons c cs ih =>
    obtain ⟨head, tail⟩ := List.forall_mem_cons.mp h
    rw [byteWidth_cons, head, ih tail, List.length_cons, Nat.add_comm]

theorem takeBytes?_eq (h : Narrow cs) (le : width ≤ cs.length) :
    takeBytes? width cs = some (cs.take width, cs.drop width) := by
  induction width generalizing cs with
  | zero => simp [takeBytes?]
  | succ width ih =>
    cases cs with
    | nil => simp at le
    | cons c cs =>
      obtain ⟨head, tail⟩ := List.forall_mem_cons.mp h
      have inner := ih tail (by simpa using le)
      simp [takeBytes?, head, inner]

theorem of_subset {ds : List Char} (h : Narrow cs) (sub : ds ⊆ cs) : Narrow ds :=
  fun c hc => h c (sub hc)

theorem leftpad {pad : Char} (h : Narrow cs) (hpad : pad.utf8Size = 1) :
    Narrow (cs.leftpad width pad) := by
  intro c hc
  rw [List.leftpad, List.mem_append] at hc
  rcases hc with hc | hc
  · rw [List.eq_of_mem_replicate hc, hpad]
  · exact h c hc

end Narrow

/-! ## Groups -/

namespace Grouping

theorem exists_outerGroups (size : ℕ) (h : Narrow cs) :
    ∃ groups, outerGroups? size cs = some groups := by
  fun_induction outerGroups? size cs with
  | case1 cs fits group rest cut ih =>
    obtain ⟨groups, eq⟩ := ih (h.of_subset (takeBytes?_append cut ▸ List.subset_append_right _ _))
    exact ⟨group :: groups, by rw [eq]; rfl⟩
  | case2 cs fits fails =>
    -- A cut inside narrow digits does not fail.
    rw [h.byteWidth_eq] at fits
    simp [h.takeBytes?_eq (Nat.le_of_lt fits.2)] at fails
  | case3 => exact ⟨_, rfl⟩

theorem exists_groups (primary secondary : ℕ) (h : Narrow cs) :
    ∃ groups, groups? primary secondary cs = some groups := by
  unfold groups?
  split
  next => exact ⟨_, rfl⟩
  next wide =>
    rw [h.byteWidth_eq] at wide
    have narrow : Narrow cs.reverse := h.of_subset (by simp)
    have le : primary ≤ cs.reverse.length := by
      rw [List.length_reverse]
      omega
    have cut := narrow.takeBytes?_eq le
    have rest := narrow.of_subset (List.drop_subset primary cs.reverse)
    obtain ⟨outer, eq⟩ := exists_outerGroups secondary rest
    simp [cut, eq]

/-- Groups are cut out of the digits in order. -/
theorem flatten_outerGroups? {size : ℕ} {groups : List (List Char)}
    (h : outerGroups? size cs = some groups) : groups.flatten = cs := by
  fun_induction outerGroups? size cs generalizing groups with
  | case1 cs fits group rest cut ih =>
    obtain ⟨outer, eq, rfl⟩ := Option.map_eq_some_iff.mp h
    rw [List.flatten_cons, ih eq, takeBytes?_append cut]
  | case2 => simp at h
  | case3 =>
    obtain rfl := Option.some.inj h
    simp

theorem flatten_groups? {primary secondary : ℕ} {groups : List (List Char)}
    (h : groups? primary secondary cs = some groups) : groups.flatten = cs := by
  unfold groups? at h
  split at h
  next =>
    obtain rfl := Option.some.inj h
    simp
  next =>
    obtain ⟨⟨last, rest⟩, cut, h⟩ := Option.bind_eq_some_iff.mp h
    obtain ⟨outer, eq, h⟩ := Option.bind_eq_some_iff.mp h
    obtain rfl := Option.some.inj h
    rw [← List.reverse_flatten, List.flatten_cons, flatten_outerGroups? eq, takeBytes?_append cut,
      List.reverse_reverse]

theorem exists_pieces (primary secondary : ℕ) (h : Narrow cs) :
    ∃ pieces, pieces? primary secondary cs = some pieces := by
  obtain ⟨groups, eq⟩ := exists_groups primary secondary h
  rw [pieces?, eq]
  exact ⟨_, rfl⟩

end Grouping

/-! ## Numerals -/

theorem utf8Size_of_isDigit {c : Char} (h : c.isDigit) : c.utf8Size = 1 := by
  rw [Char.utf8Size_eq_one_iff]
  have upper : c.val ≤ 57 := by
    simp only [Char.isDigit, Bool.and_eq_true, decide_eq_true_eq] at h
    exact h.2
  exact UInt32.le_trans upper (by decide)

theorem Magnitude.narrow_integer (x : Magnitude) : Narrow x.numeral.integer := by
  cases x with
  | infinite =>
    intro c hc
    obtain rfl | rfl | rfl : c = 'i' ∨ c = 'n' ∨ c = 'f' := by simpa [numeral] using hc
    all_goals rfl
  | finite units representable =>
    intro c hc
    exact utf8Size_of_isDigit (Nat.isDigit_of_mem_toDigits (by decide) (by decide) hc)

theorem Binary64.narrow_integer (x : Binary64) : Narrow x.numeral.integer := by
  match x with
  | nan =>
    intro c hc
    obtain rfl | rfl | rfl : c = 'N' ∨ c = 'a' ∨ c = 'N' := by simpa [numeral] using hc
    all_goals rfl
  | signed false m => exact m.narrow_integer
  | signed true m =>
    refine List.forall_mem_cons.mpr ⟨rfl, m.narrow_integer⟩

theorem narrow_padInteger (whole : Binary64) (least : ℕ) (most : Option ℕ) {pad : Char}
    (hpad : pad.utf8Size = 1) : Narrow (padInteger whole least most pad) := by
  unfold padInteger
  split
  · exact fun c hc => absurd hc List.not_mem_nil
  · refine Narrow.leftpad ?_ hpad
    split
    · exact whole.narrow_integer.of_subset (List.drop_subset _ _)
    · exact whole.narrow_integer

variable {layout : Layout} {x : Binary64} {n : Numeral}

theorem narrow_of_splitSignificant? {least : ℕ} {most : Option ℕ} {pad : Char}
    (h : splitSignificant? x least most pad = some n) : Narrow n.integer := by
  obtain ⟨rounded, -, h⟩ := Option.bind_eq_some_iff.mp h
  obtain rfl := Option.some.inj h
  exact rounded.floor.narrow_integer

theorem Layout.narrow_of_formatFixed? (hpad : layout.pad.utf8Size = 1)
    (h : layout.formatFixed? x = some n) : Narrow n.integer := by
  obtain ⟨rounded, -, h⟩ := Option.bind_eq_some_iff.mp h
  obtain rfl := Option.some.inj h
  exact narrow_padInteger _ _ _ hpad

end DecimalPattern
