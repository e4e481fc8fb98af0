import DecimalPattern.Locale.Table
import Mathlib.Data.List.DropRight

/-! # Normal forms of tags

A normal form is its own normal form: no blank is left at its ends, and the other characters of a
tag are neither blanks before nor after they are normalised.
-/

namespace DecimalPattern

variable {c : Char} {f : Char → Char}

/-- A character as it stands in the normal form of a tag. -/
def normalizeChar (c : Char) : Char := if c = '_' then '-' else c.toLower

theorem toList_normalizeTag (tag : String) :
    (normalizeTag tag).toList = (trimBlank tag.toList).map normalizeChar :=
  String.toList_ofList

/-- Only the capital letters of ASCII have another small form. -/
theorem toLower_cases (c : Char) : c.toLower = c ∨ ∃ n < 26, c = Char.ofNat (65 + n) := by
  by_cases capital : 65 ≤ c.toNat ∧ c.toNat ≤ 90
  · refine .inr ⟨c.toNat - 65, by omega, ?_⟩
    rw [Nat.add_sub_cancel' capital.1, Char.ofNat_toNat]
  · exact .inl (dif_neg capital)

theorem normalizeChar_cases (c : Char) : normalizeChar c = c ∨
    isBlank c = false ∧ isBlank (normalizeChar c) = false ∧
      normalizeChar (normalizeChar c) = normalizeChar c := by
  have capitals : ∀ n < 26, isBlank (.ofNat (65 + n)) = false ∧
      isBlank (normalizeChar (.ofNat (65 + n))) = false ∧
      normalizeChar (normalizeChar (.ofNat (65 + n))) = normalizeChar (.ofNat (65 + n)) := by
    decide
  by_cases underscore : c = '_'
  · exact .inr (by subst underscore; decide)
  · rcases toLower_cases c with small | ⟨n, lt, rfl⟩
    · exact .inl (by rw [normalizeChar, if_neg underscore, small])
    · exact .inr (capitals n lt)

theorem isBlank_normalizeChar (c : Char) : isBlank (normalizeChar c) = isBlank c := by
  rcases normalizeChar_cases c with same | ⟨before, after, -⟩
  · rw [same]
  · rw [before, after]

theorem normalizeChar_normalizeChar (c : Char) :
    normalizeChar (normalizeChar c) = normalizeChar c := by
  rcases normalizeChar_cases c with same | ⟨-, -, again⟩
  · rw [same, same]
  · exact again

theorem trimBlank_map (keeps : ∀ c, isBlank (f c) = isBlank c) (cs : List Char) :
    trimBlank (cs.map f) = (trimBlank cs).map f := by
  have same : isBlank ∘ f = isBlank := funext keeps
  simp only [trimBlank, List.dropWhile_map, ← List.map_reverse, same]

theorem trimBlank_trimBlank (cs : List Char) : trimBlank (trimBlank cs) = trimBlank cs := by
  have trimmed : ∀ l, trimBlank l = (l.dropWhile isBlank).rdropWhile isBlank := fun _ => rfl
  have start : (trimBlank cs).dropWhile isBlank = trimBlank cs := by
    rw [List.dropWhile_eq_self_iff]
    intro pos
    have kept := List.rdropWhile_prefix isBlank (l := cs.dropWhile isBlank)
    rw [← trimmed] at kept
    rw [kept.getElem pos]
    exact List.dropWhile_get_zero_not _ _ _
  rw [trimmed (trimBlank cs), start, trimmed cs, List.rdropWhile_idempotent]

/-- Normalisation changes no normal form. -/
theorem normalizeTag_normalizeTag (tag : String) :
    normalizeTag (normalizeTag tag) = normalizeTag tag := by
  rw [← String.toList_inj, toList_normalizeTag, toList_normalizeTag,
    trimBlank_map isBlank_normalizeChar, trimBlank_trimBlank, List.map_map]
  exact List.map_congr_left fun c _ => normalizeChar_normalizeChar c

end DecimalPattern
