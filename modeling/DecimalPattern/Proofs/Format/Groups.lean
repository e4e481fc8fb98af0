import DecimalPattern.Proofs.Format.Grouping
import Mathlib.Data.List.Flatten

/-! # The groups of digits

The two sizes and the number of digits leave one way to group them: the groups between the first
and the last have a fixed width, and what is left over for the first determines their number.
-/

namespace DecimalPattern

variable {digits cs first last first' last' : List Char} {middle middle' : List (List Char)}
  {primary secondary size : ℕ}

/-- A first group, groups of the secondary size and a last one of the primary size. -/
structure Cut (primary secondary : ℕ) (digits first : List Char) (middle : List (List Char))
    (last : List Char) : Prop where
  flatten : first ++ middle.flatten ++ last = digits
  length_last : last.length = primary
  length_middle : ∀ group ∈ middle, group.length = secondary
  first_ne : first ≠ []
  length_first_le : 0 < secondary → first.length ≤ secondary
  middle_eq_nil : secondary = 0 → middle = []

/-- The groups of digits that do not all fit into the last one. -/
def IsGrouping (primary secondary : ℕ) (digits : List Char) (groups : List (List Char)) : Prop :=
  ∃ first middle last, groups = first :: (middle ++ [last]) ∧
    Cut primary secondary digits first middle last

namespace Cut

variable (cut : Cut primary secondary digits first middle last)
include cut

theorem length_eq : first.length + middle.length * secondary + primary = digits.length := by
  have width : middle.flatten.length = middle.length * secondary := by
    rw [List.length_flatten, List.map_congr_left cut.length_middle, List.map_const',
      List.sum_replicate_nat]
  rw [← cut.flatten, List.length_append, List.length_append, width, cut.length_last]

theorem map_length : (first :: (middle ++ [last])).map List.length =
    first.length :: (List.replicate middle.length secondary ++ [primary]) := by
  rw [List.map_cons, List.map_append, List.map_congr_left cut.length_middle, List.map_const',
    List.map_singleton, cut.length_last]

/-- With a group more between the first and the last than another cut has, there are no digits left
for the first. -/
theorem length_middle_le (other : Cut primary secondary digits first' middle' last') :
    middle.length ≤ middle'.length := by
  rcases Nat.eq_zero_or_pos secondary with zero | pos
  · rw [cut.middle_eq_nil zero]
    exact Nat.zero_le _
  · by_contra more
    have total := cut.length_eq.trans other.length_eq.symm
    have width := other.length_first_le pos
    have some := List.length_pos_iff.mpr cut.first_ne
    have digits := Nat.mul_le_mul_right secondary (Nat.lt_of_not_le more)
    rw [Nat.succ_mul] at digits
    omega

theorem unique (other : Cut primary secondary digits first' middle' last') :
    first :: (middle ++ [last]) = first' :: (middle' ++ [last']) := by
  have count := Nat.le_antisymm (cut.length_middle_le other) (other.length_middle_le cut)
  have total := cut.length_eq.trans other.length_eq.symm
  refine List.eq_iff_flatten_eq.mpr ⟨?_, ?_⟩
  · simpa using cut.flatten.trans other.flatten.symm
  · rw [cut.map_length, other.map_length, count]
    rw [count] at total
    rw [show first.length = first'.length by omega]

theorem group_ne (pos : 0 < primary) : ∀ group ∈ first :: (middle ++ [last]), group ≠ [] := by
  have inner : ∀ group ∈ middle, group ≠ [] := by
    rintro group mem rfl
    have zero := (cut.length_middle _ mem).symm
    rw [cut.middle_eq_nil zero] at mem
    exact List.not_mem_nil mem
  have outer : last ≠ [] := by
    rw [← List.length_pos_iff, cut.length_last]
    exact pos
  simpa [or_imp, forall_and] using ⟨cut.first_ne, inner, outer⟩

end Cut

namespace Grouping

/-- Groups are cut off until at most one size is left. -/
theorem exists_outerGroups_eq (size : ℕ) (h : Narrow cs) (ne : cs ≠ []) :
    ∃ middle rest, outerGroups? size cs = some (middle ++ [rest]) ∧
      (∀ group ∈ middle, group.length = size) ∧ rest ≠ [] ∧ (0 < size → rest.length ≤ size) ∧
      (size = 0 → middle = []) := by
  fun_induction outerGroups? size cs with
  | case1 cs fits group others cut ih =>
    obtain ⟨pos, wide⟩ := fits
    rw [h.byteWidth_eq] at wide
    have le := Nat.le_of_lt wide
    obtain ⟨rfl, rfl⟩ : cs.take size = group ∧ cs.drop size = others := by
      simpa using (h.takeBytes?_eq le).symm.trans cut
    have left : cs.drop size ≠ [] := by
      rw [← List.length_pos_iff, List.length_drop]
      omega
    obtain ⟨middle, rest, eq, widths, restNe, restLe, -⟩ :=
      ih (h.of_subset (List.drop_subset _ _)) left
    refine ⟨cs.take size :: middle, rest, by rw [eq]; rfl, ?_, restNe, restLe, fun zero => by omega⟩
    refine List.forall_mem_cons.mpr ⟨?_, widths⟩
    rw [List.length_take, Nat.min_eq_left le]
  | case2 cs fits fails =>
    rw [h.byteWidth_eq] at fits
    simp [h.takeBytes?_eq (Nat.le_of_lt fits.2)] at fails
  | case3 cs stop =>
    rw [h.byteWidth_eq, not_and, Nat.not_lt] at stop
    exact ⟨[], cs, rfl, by simp, ne, stop, fun _ => rfl⟩

/-- The digits that do not fit are grouped. -/
theorem exists_isGrouping (secondary : ℕ) (h : Narrow digits) (pos : 0 < primary)
    (wide : primary < digits.length) : ∃ groups, groups? primary secondary digits = some groups ∧
      IsGrouping primary secondary digits groups := by
  have narrow : Narrow digits.reverse := h.of_subset (by simp)
  have le : primary ≤ digits.reverse.length := by
    rw [List.length_reverse]
    exact Nat.le_of_lt wide
  have left : digits.reverse.drop primary ≠ [] := by
    rw [← List.length_pos_iff, List.length_drop, List.length_reverse]
    omega
  obtain ⟨middle, first, eq, widths, firstNe, firstLe, two⟩ :=
    exists_outerGroups_eq secondary (narrow.of_subset (List.drop_subset primary _)) left
  have groups : groups? primary secondary digits =
      some (first.reverse :: ((middle.map List.reverse).reverse ++
        [(digits.reverse.take primary).reverse])) := by
    rw [groups?, if_neg (by rw [h.byteWidth_eq]; omega), narrow.takeBytes?_eq le]
    simp [eq]
  refine ⟨_, groups, _, _, _, rfl, ?_, ?_, ?_, ?_, ?_, ?_⟩
  · simpa using flatten_groups? groups
  · rw [List.length_reverse, List.length_take, Nat.min_eq_left le]
  · intro group mem
    rw [← List.length_reverse]
    exact widths group.reverse (by simpa using mem)
  · simpa using firstNe
  · simpa using firstLe
  · simpa using two

end Grouping

/-! ## Separators -/

/-- Every separator stands between two groups that are not empty. -/
def Separates (pieces : List Piece) : Prop :=
  ∀ before after, pieces = before ++ .symbol .thousandsSeparator :: after →
    (∃ start group, group ≠ [] ∧ before = start ++ [.ofDigits group]) ∧
      ∃ group rest, group ≠ [] ∧ after = .ofDigits group :: rest

variable {groups : List (List Char)}

theorem separates_intersperse (ne : ∀ group ∈ groups, group ≠ []) :
    Separates ((groups.map Piece.ofDigits).intersperse (.symbol .thousandsSeparator)) := by
  induction groups with
  | nil =>
    intro before after eq
    simp at eq
  | cons group groups ih =>
    obtain ⟨groupNe, ne⟩ := List.forall_mem_cons.mp ne
    cases groups with
    | nil =>
      intro before after eq
      cases before <;> simp [Piece.ofDigits] at eq
    | cons next groups =>
      intro before after eq
      rw [List.map_cons, List.map_cons, List.intersperse_cons_cons] at eq
      rcases before with - | ⟨first, - | ⟨second, before⟩⟩
      · simp [Piece.ofDigits] at eq
      · obtain ⟨rfl, tail⟩ := List.cons.inj eq
        obtain ⟨-, rfl⟩ := List.cons.inj (tail.trans (List.nil_append _))
        refine ⟨⟨[], group, groupNe, rfl⟩, next, ?_⟩
        cases groups <;> exact ⟨_, ne next List.mem_cons_self, rfl⟩
      · obtain ⟨⟨start, last, lastNe, rfl⟩, right⟩ :=
          ih ne before after (List.cons.inj (List.cons.inj eq).2).2
        exact ⟨⟨first :: second :: start, last, lastNe, rfl⟩, right⟩

/-- Digits that fit into the last group are left as they are; others are grouped in the only way, and
the text has the separator between the groups. -/
theorem pieces?_of_isDigit (primary secondary : ℕ) (h : ∀ c ∈ digits, c.isDigit) :
    ∃ pieces, Grouping.pieces? primary secondary digits = some pieces ∧
      if primary = 0 ∨ digits.length ≤ primary then
        (∀ symbols, Piece.renderAll symbols pieces = String.ofList digits) ∧
          ∀ separator, groupInteger? digits primary secondary separator =
            some (String.ofList digits)
      else
        ∃ groups, (∀ others, IsGrouping primary secondary digits others ↔ others = groups) ∧
          (∀ group ∈ groups, group ≠ []) ∧ Separates pieces ∧
          (∀ symbols, Piece.renderAll symbols pieces =
            symbols.thousandsSeparator.intercalate (groups.map String.ofList)) ∧
          ∀ separator, groupInteger? digits primary secondary separator =
            some (separator.intercalate (groups.map String.ofList)) := by
  have narrow : Narrow digits := fun c hc => utf8Size_of_isDigit (h c hc)
  split_ifs with fits
  · have whole : Grouping.groups? primary secondary digits = some [digits] := by
      rw [Grouping.groups?, narrow.byteWidth_eq, if_pos fits]
    refine ⟨[.ofDigits digits], by rw [Grouping.pieces?, whole]; rfl, fun symbols => by simp,
      fun separator => ?_⟩
    rw [groupInteger?, whole]
    rfl
  · have pos : 0 < primary := by omega
    obtain ⟨groups, eq, grouping⟩ :=
      Grouping.exists_isGrouping secondary narrow pos (by omega)
    obtain ⟨first, middle, last, rfl, cut⟩ := grouping
    have ne := cut.group_ne pos
    refine ⟨_, by rw [Grouping.pieces?, eq]; rfl, _, fun others => ⟨?_, ?_⟩, ne,
      separates_intersperse ne, fun symbols => renderAll_intersperse symbols _,
      fun separator => by rw [groupInteger?, eq]; rfl⟩
    · rintro ⟨first', middle', last', rfl, other⟩
      exact other.unique cut
    · rintro rfl
      exact ⟨first, middle, last, rfl, cut⟩

/-- A number of outer digits that is a multiple of the secondary size leaves a full first group. -/
theorem pieces?_of_isDigit_of_full_group :
    let digits := ['1', '2', '3', '4', '5', '6', '7']
    let groups := [['1', '2'], ['3', '4'], ['5', '6', '7']]
    (∀ c ∈ digits, c.isDigit) ∧ (∀ others, IsGrouping 3 2 digits others ↔ others = groups) ∧
      ∃ pieces, Grouping.pieces? 3 2 digits = some pieces ∧ Separates pieces ∧
        ∀ separator, groupInteger? digits 3 2 separator =
          some (separator.intercalate ["12", "34", "567"]) := by
  intro digits groups
  have h : ∀ c ∈ digits, c.isDigit := List.all_eq_true.mp rfl
  have grouping : IsGrouping 3 2 digits groups :=
    ⟨['1', '2'], [['3', '4']], ['5', '6', '7'], rfl, rfl, rfl, by simp, by simp, by simp, by simp⟩
  obtain ⟨pieces, eq, shown⟩ := pieces?_of_isDigit 3 2 h
  rw [if_neg (by decide)] at shown
  obtain ⟨others, unique, -, separates, -, text⟩ := shown
  obtain rfl := (unique groups).mp grouping
  exact ⟨h, unique, pieces, eq, separates, text⟩

end DecimalPattern
