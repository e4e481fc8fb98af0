import DecimalPattern.Proofs.Locale.Registration

/-! # Merging tables

Merging is associative and idempotent with the empty table for a unit, and registers the entries of
the second table in the first. A merged table resolves a tag in the second table, unless only the
first has an entry for that tag, or neither has and the second has none for the language either.
-/

namespace DecimalPattern.LocaleTable

variable {left right : LocaleTable} {order : List (String × LocaleEntry)} {key tag : String}

theorem merge_assoc (first second third : LocaleTable) :
    (first.merge second).merge third = first.merge (second.merge third) := by
  apply ext_find?
  intro key
  rw [find?_merge, find?_merge, find?_merge, find?_merge]
  exact Option.or_assoc.symm

theorem merge_self (table : LocaleTable) : table.merge table = table := by
  apply ext_find?
  intro key
  rw [find?_merge]
  exact Option.or_self

theorem empty_merge (table : LocaleTable) : empty.merge table = table := by
  apply ext_find?
  intro key
  rw [find?_merge, find?_empty]
  exact Option.or_none

theorem merge_empty (table : LocaleTable) : table.merge empty = table := by
  apply ext_find?
  intro key
  rw [find?_merge, find?_empty]
  exact Option.none_or

/-! ## Tables of normal forms -/

theorem NormalKeys.agree (normal : right.NormalKeys) : Agree right.entries := by
  rintro ⟨k, e⟩ hk ⟨k', e'⟩ hk' same
  have found := find?_eq_some_iff.mpr hk
  have found' := find?_eq_some_iff.mpr hk'
  rw [normal.of_find? found, normal.of_find? found'] at same
  subst same
  exact Option.some.inj (found.symm.trans found')

theorem NormalKeys.latest?_entries (normal : right.NormalKeys) (key : String) :
    latest? key right.entries = right.find? key := by
  ext entry
  rw [normal.agree.latest?_eq_some_iff, find?_eq_some_iff]
  constructor
  · rintro ⟨tag, mem, rfl⟩
    rwa [normal.of_find? (find?_eq_some_iff.mpr mem)]
  · exact fun mem => ⟨key, mem, normal.of_find? (find?_eq_some_iff.mpr mem)⟩

theorem NormalKeys.foldl_insert_eq_merge (normal : right.NormalKeys)
    (visited : order.Perm right.entries) (left : LocaleTable) :
    order.foldl (fun table (tag, entry) => table.insert tag entry) left = left.merge right := by
  apply ext_find?
  intro key
  rw [find?_foldl_insert, normal.agree.latest?_perm visited, normal.latest?_entries, find?_merge]

theorem NormalKeys.find?_normalizeTag (normal : right.NormalKeys) (key : String) :
    right.find? key = none ∨ normalizeTag key = key := by
  cases found : right.find? key with
  | none => exact .inl rfl
  | some entry => exact .inr (normal.of_find? found)

/-! ## Resolution -/

theorem symbols_merge_of_right (found : right.contains tag = true) :
    (left.merge right).symbols tag = right.symbols tag := by
  obtain ⟨entry, found⟩ := contains_iff.mp found
  rw [symbols_of_find? found]
  exact symbols_of_find? (by rw [find?_merge, found]; rfl)

theorem symbols_merge_of_left (absent : right.contains tag = false)
    (found : left.contains tag = true) :
    (left.merge right).symbols tag = left.symbols tag := by
  rw [contains_eq_false_iff] at absent
  obtain ⟨entry, found⟩ := contains_iff.mp found
  rw [symbols_of_find? found]
  exact symbols_of_find? (by rw [find?_merge, absent, found]; rfl)

/-- Without entries of their own on either side, tags are resolved by their language. -/
theorem symbols_merge_of_language (absent : right.contains tag = false)
    (absent' : left.contains tag = false) :
    (left.merge right).symbols tag =
      (((right.find? (languageOf (normalizeTag tag))).or
        (left.find? (languageOf (normalizeTag tag)))).map (·.resolve .english)).getD .english := by
  rw [contains_eq_false_iff] at absent absent'
  rw [symbols_eq, find?_merge, find?_merge, absent, absent']
  rfl

/-- Only a language that is a normal form is found, whichever table has an entry for it. -/
theorem symbols_merge_of_right_language (normal : left.NormalKeys)
    (absent : right.contains tag = false) (absent' : left.contains tag = false)
    (found : right.contains (languageOf (normalizeTag tag)) = true) :
    (left.merge right).symbols tag = right.symbols tag := by
  rw [symbols_merge_of_language absent absent', symbols_eq, contains_eq_false_iff.mp absent]
  obtain ⟨entry, found⟩ := contains_iff.mp found
  -- Asking for the language normalises it once more, which merging does not.
  rcases normal.find?_normalizeTag (languageOf (normalizeTag tag)) with none | same
  · rw [none, Option.or_none]
    rfl
  · rw [same] at found
    rw [found]
    rfl

theorem symbols_merge_of_left_language (normal : right.NormalKeys)
    (absent : right.contains tag = false) (absent' : left.contains tag = false)
    (language : right.contains (languageOf (normalizeTag tag)) = false) :
    (left.merge right).symbols tag = left.symbols tag := by
  rw [contains_eq_false_iff] at language
  have none : right.find? (languageOf (normalizeTag tag)) = none := by
    rcases normal.find?_normalizeTag (languageOf (normalizeTag tag)) with none | same
    · exact none
    · rwa [same] at language
  rw [symbols_merge_of_language absent absent', symbols_eq, contains_eq_false_iff.mp absent', none]

theorem symbols_merge (normal : left.NormalKeys) (normal' : right.NormalKeys) (tag : String) :
    (left.merge right).symbols tag =
      if right.contains tag then right.symbols tag
      else if left.contains tag then left.symbols tag
      else if right.contains (languageOf (normalizeTag tag)) then right.symbols tag
      else left.symbols tag := by
  split_ifs with inRight inLeft language
  · exact symbols_merge_of_right inRight
  · exact symbols_merge_of_left (Bool.eq_false_of_not_eq_true inRight) inLeft
  · exact symbols_merge_of_right_language normal (Bool.eq_false_of_not_eq_true inRight)
      (Bool.eq_false_of_not_eq_true inLeft) language
  · exact symbols_merge_of_left_language normal' (Bool.eq_false_of_not_eq_true inRight)
      (Bool.eq_false_of_not_eq_true inLeft) (Bool.eq_false_of_not_eq_true language)

/-- The laws of merging, and how a merged table resolves tags. -/
theorem merge_laws (left right third : LocaleTable) :
    (left.merge right).merge third = left.merge (right.merge third) ∧
    left.merge left = left ∧ empty.merge left = left ∧ left.merge empty = left ∧
    (right.NormalKeys → ∀ order : List (String × LocaleEntry), order.Perm right.entries →
      order.foldl (fun table (tag, entry) => table.insert tag entry) left = left.merge right) ∧
    (left.NormalKeys → right.NormalKeys → ∀ tag, (left.merge right).symbols tag =
      if right.contains tag then right.symbols tag
      else if left.contains tag then left.symbols tag
      else if right.contains (languageOf (normalizeTag tag)) then right.symbols tag
      else left.symbols tag) :=
  ⟨merge_assoc left right third, merge_self left, empty_merge left, merge_empty left,
    fun normal _ visited => normal.foldl_insert_eq_merge visited left, symbols_merge⟩

theorem merge_laws_of_region :
    let named (name : String) := { LocaleEntry.empty with nanSymbol := some name }
    let left := ofList [("xx-YY", named "region"), ("xx", named "first")]
    let right := ofList [("zz", named "other"), ("XX", named "second")]
    left.NormalKeys ∧ right.NormalKeys ∧
      [("zz", named "other"), ("xx", named "second")].foldl
        (fun table (tag, entry) => table.insert tag entry) left = left.merge right ∧
      (left.merge right).symbols "xx_yy" = left.symbols "xx_yy" ∧
      (left.merge right).symbols "xx-zz" = right.symbols "xx-zz" := by
  intro named left right
  have normal : left.NormalKeys := by unfold NormalKeys; decide
  have normal' : right.NormalKeys := by unfold NormalKeys; decide
  obtain ⟨-, -, -, -, visited, resolved⟩ := merge_laws left right empty
  have region := resolved normal normal' "xx_yy"
  have language := resolved normal normal' "xx-zz"
  rw [if_neg (by decide), if_pos (by decide)] at region
  rw [if_neg (by decide), if_neg (by decide), if_pos (by decide)] at language
  exact ⟨normal, normal', visited normal' _ (.swap ..), region, language⟩

end DecimalPattern.LocaleTable
