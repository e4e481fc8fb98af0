import DecimalPattern.Locale.Table
import DecimalPattern.Proofs.Locale.Tag
import Mathlib.Data.List.Sort

/-! # Tables as maps

A table is known by the entries that it finds: they determine it, and a merged table finds those of
the second table before those of the first.
-/

namespace DecimalPattern.LocaleTable

variable {list : List (String × LocaleEntry)} {table other : LocaleTable} {entry : LocaleEntry}
  {key tag : String}

/-! ## Ordered lists -/

theorem Sorted.irrefl : Std.Irrefl fun p q : String × LocaleEntry => p.1 < q.1 :=
  ⟨fun p => String.lt_irrefl p.1⟩

theorem lookup_cons_of_ne {k : String} {e : LocaleEntry} (ne : key ≠ k) :
    ((k, e) :: list).lookup key = list.lookup key := by
  rw [List.lookup_cons, beq_false_of_ne ne]

theorem Sorted.lookup_eq_some_iff (sorted : Sorted list) :
    list.lookup key = some entry ↔ (key, entry) ∈ list := by
  induction list with
  | nil => simp
  | cons head rest ih =>
    obtain ⟨k, e⟩ := head
    obtain ⟨first, others⟩ := List.pairwise_cons.mp sorted
    by_cases here : key = k
    · subst here
      have absent : (key, entry) ∉ rest := fun mem => String.lt_irrefl key (first _ mem)
      simp [absent, eq_comm]
    · simp [lookup_cons_of_ne here, here, ih others]

theorem Sorted.lookup_eq_none (sorted : Sorted ((key, entry) :: list)) :
    list.lookup key = none := by
  obtain ⟨first, others⟩ := List.pairwise_cons.mp sorted
  rw [Option.eq_none_iff_forall_ne_some]
  intro found eq
  exact String.lt_irrefl key (first _ (Sorted.lookup_eq_some_iff others |>.mp eq))

/-! ## Tables -/

theorem find?_eq_some_iff : table.find? key = some entry ↔ (key, entry) ∈ table.entries :=
  table.sorted.lookup_eq_some_iff

theorem ext_find? (h : ∀ key, table.find? key = other.find? key) : table = other := by
  have same : table.entries = other.entries := by
    have := Sorted.irrefl
    refine table.sorted.eq_of_mem_iff other.sorted fun (key, entry) => ?_
    rw [← find?_eq_some_iff, ← find?_eq_some_iff, h]
  cases table
  cases other
  simpa using same

theorem mem_tags_iff : key ∈ table.tags ↔ ∃ entry, table.find? key = some entry := by
  simp [tags, find?_eq_some_iff]

theorem find?_empty (key : String) : empty.find? key = none := rfl

/-- Puts an entry at a key as it is. -/
def put (table : LocaleTable) (p : String × LocaleEntry) : LocaleTable :=
  ⟨insertSorted p.1 p.2 table.entries, sorted_insertSorted _ _ table.sorted⟩

theorem merge_eq_foldl_put : table.merge other = other.entries.foldl put table := rfl

theorem find?_put (table : LocaleTable) (p : String × LocaleEntry) (key : String) :
    (table.put p).find? key = if key = p.1 then some p.2 else table.find? key :=
  lookup_insertSorted ..

theorem find?_foldl_put (sorted : Sorted list) (table : LocaleTable) :
    (list.foldl put table).find? key = (list.lookup key).or (table.find? key) := by
  induction list generalizing table with
  | nil => simp
  | cons head rest ih =>
    obtain ⟨k, e⟩ := head
    rw [List.foldl_cons, ih (List.pairwise_cons.mp sorted).2, find?_put]
    by_cases here : key = k
    · subst here
      simp [sorted.lookup_eq_none]
    · simp [lookup_cons_of_ne here, here]

theorem find?_merge (table other : LocaleTable) (key : String) :
    (table.merge other).find? key = (other.find? key).or (table.find? key) := by
  rw [merge_eq_foldl_put, find?_foldl_put other.sorted]
  rfl

/-! ## What is seen of a tag -/

theorem contains_iff :
    table.contains tag = true ↔ ∃ entry, table.find? (normalizeTag tag) = some entry :=
  Option.isSome_iff_exists

theorem contains_eq_false_iff :
    table.contains tag = false ↔ table.find? (normalizeTag tag) = none := by
  simp [contains]

theorem symbols_eq (table : LocaleTable) (tag : String) :
    table.symbols tag = (((table.find? (normalizeTag tag)).or
      (table.find? (languageOf (normalizeTag tag)))).map (·.resolve .english)).getD .english := by
  rw [symbols, lookup?, Option.orElse_eq_orElse, Option.orElse_eq_or]
  cases (table.find? (normalizeTag tag)).or (table.find? (languageOf (normalizeTag tag))) <;> rfl

theorem symbols_of_find? (found : table.find? (normalizeTag tag) = some entry) :
    table.symbols tag = entry.resolve .english := by
  rw [symbols_eq, found]
  rfl

theorem symbols_of_language (absent : table.find? (normalizeTag tag) = none)
    (found : table.find? (languageOf (normalizeTag tag)) = some entry) :
    table.symbols tag = entry.resolve .english := by
  rw [symbols_eq, absent, found]
  rfl

theorem symbols_of_absent (absent : table.find? (normalizeTag tag) = none)
    (language : table.find? (languageOf (normalizeTag tag)) = none) :
    table.symbols tag = .english := by
  rw [symbols_eq, absent, language]
  rfl

/-! ## Tables of normal forms -/

/-- Every key is a normal form. -/
def NormalKeys (table : LocaleTable) : Prop := ∀ key ∈ table.tags, normalizeTag key = key

theorem NormalKeys.of_find? (normal : table.NormalKeys) (found : table.find? key = some entry) :
    normalizeTag key = key :=
  normal key (mem_tags_iff.mpr ⟨entry, found⟩)

theorem NormalKeys.symbols_of_mem (normal : table.NormalKeys) (mem : (key, entry) ∈ table.entries) :
    table.contains key = true ∧ table.symbols key = entry.resolve .english := by
  have found : table.find? (normalizeTag key) = some entry := by
    rw [normal.of_find? (find?_eq_some_iff.mpr mem)]
    exact find?_eq_some_iff.mpr mem
  exact ⟨contains_iff.mpr ⟨entry, found⟩, symbols_of_find? found⟩

end DecimalPattern.LocaleTable
