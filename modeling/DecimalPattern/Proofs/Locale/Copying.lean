import DecimalPattern.Proofs.Locale.Table

/-! # Copies of symbols

No resolved symbol is empty, as the English symbols are not, so that the symbols of a tag stay what
they are when they are registered again. Registering an entry changes the symbols of those tags
only that find it at their own key or, having no entry of their own, at that of their language.
-/

namespace DecimalPattern

variable {entry : LocaleEntry} {symbols fallback : Symbols} {s : Symbol} {tag : String}

theorem LocaleEntry.get_resolve (entry : LocaleEntry) (fallback : Symbols) (s : Symbol) :
    (entry.resolve fallback).get s =
      match entry.get s with
      | some text => if text.isEmpty then fallback.get s else text
      | none => fallback.get s :=
  SymbolMap.get_ofFn ..

theorem Symbols.english_ne_empty (s : Symbol) : english.get s ≠ "" := by
  cases s <;> decide

theorem LocaleEntry.resolve_ne_empty (full : ∀ s, fallback.get s ≠ "") (s : Symbol) :
    (entry.resolve fallback).get s ≠ "" := by
  rw [get_resolve]
  cases given : entry.get s with
  | none => exact full s
  | some text =>
    dsimp only
    split_ifs with isEmpty
    · exact full s
    · exact fun eq => isEmpty (eq ▸ rfl)

theorem Symbols.resolve_toEntry (full : ∀ s, symbols.get s ≠ "") (fallback : Symbols) :
    symbols.toEntry.resolve fallback = symbols := by
  apply SymbolMap.ext_get
  intro s
  rw [LocaleEntry.get_resolve, toEntry, SymbolMap.get_ofFn]
  exact if_neg fun isEmpty => full s (String.isEmpty_iff.mp isEmpty)

namespace LocaleTable

theorem symbols_ne_empty (table : LocaleTable) (tag : String) (s : Symbol) :
    (table.symbols tag).get s ≠ "" := by
  rw [symbols]
  cases table.lookup? tag with
  | none => exact Symbols.english_ne_empty s
  | some entry => exact LocaleEntry.resolve_ne_empty Symbols.english_ne_empty s

theorem symbols_insert (table : LocaleTable) (tag : String) (entry : LocaleEntry)
    (other : String) :
    (table.insert tag entry).symbols other =
      if normalizeTag other = normalizeTag tag ∨
          table.contains other = false ∧ languageOf (normalizeTag other) = normalizeTag tag
      then entry.resolve .english else table.symbols other := by
  by_cases own : normalizeTag other = normalizeTag tag
  · rw [if_pos (.inl own)]
    exact symbols_of_find? (by rw [find?_insert, if_pos own])
  · cases found : table.find? (normalizeTag other) with
    | some e =>
      have present : table.contains other = true := contains_iff.mpr ⟨e, found⟩
      rw [if_neg (by simp [own, present]), symbols_of_find? found]
      exact symbols_of_find? (by rw [find?_insert, if_neg own, found])
    | none =>
      have absent : table.contains other = false := contains_eq_false_iff.mpr found
      by_cases language : languageOf (normalizeTag other) = normalizeTag tag
      · rw [if_pos (.inr ⟨absent, language⟩)]
        exact symbols_of_language (by rw [find?_insert, if_neg own, found])
          (by rw [find?_insert, if_pos language])
      · rw [if_neg (by simp [own, language]), symbols_eq, symbols_eq, find?_insert, find?_insert,
          if_neg own, if_neg language]

/-- Every symbol that a table resolves has a text, and symbols that are copied to a tag are found
again there and wherever that tag is the language of one without an entry, and nowhere else. -/
theorem symbols_insert_symbols (table source : LocaleTable) (tag sourceTag : String) :
    (∀ other s, (table.symbols other).get s ≠ "") ∧
    let extended := table.insert tag (source.symbols sourceTag).toEntry
    extended.symbols tag = source.symbols sourceTag ∧
    ∀ other, extended.symbols other =
      if normalizeTag other = normalizeTag tag ∨
          table.contains other = false ∧ languageOf (normalizeTag other) = normalizeTag tag
      then source.symbols sourceTag else table.symbols other := by
  have kept : (source.symbols sourceTag).toEntry.resolve .english = source.symbols sourceTag :=
    Symbols.resolve_toEntry (source.symbols_ne_empty sourceTag) .english
  refine ⟨table.symbols_ne_empty, ?_, fun other => ?_⟩
  · rw [symbols_insert, if_pos (.inl rfl), kept]
  · rw [symbols_insert, kept]

end LocaleTable

end DecimalPattern
