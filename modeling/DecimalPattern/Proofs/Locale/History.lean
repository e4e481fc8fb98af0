import DecimalPattern.Locale.Builtin
import DecimalPattern.Proofs.Locale.Registration

/-! # Histories of tables

However a table is made, what it finds is decided by the registrations that were made on the way,
in their order, and of each tag by its normal form alone.
-/

namespace DecimalPattern.LocaleTable

/-- A table that is made by some operations, and the registrations that they make, in their order.
The entries of a document are visited in any order, and those of a second table that is merged
come after those of the first. -/
inductive Built : LocaleTable → List (String × LocaleEntry) → Prop
  | empty : Built .empty []
  | builtin : Built .builtin builtinEntries
  | document {text : String} {entries order : List (String × LocaleEntry)} {table : LocaleTable} :
      entriesOf? text = some entries → order.Perm entries → load order = .ok table →
        Built table order
  | insert {table : LocaleTable} {entries : List (String × LocaleEntry)} (tag : String)
      (entry : LocaleEntry) : Built table entries →
        Built (table.insert tag entry) (entries ++ [(tag, entry)])
  | merge {table other : LocaleTable} {entries others : List (String × LocaleEntry)} :
      Built table entries → Built other others → Built (table.merge other) (entries ++ others)

variable {table other : LocaleTable} {entries others : List (String × LocaleEntry)}
  {entry : LocaleEntry} {key tag : String}

namespace Built

/-- A table finds at each key the entry that was last registered there. -/
theorem find?_eq (built : Built table entries) (key : String) :
    table.find? key = latest? key entries := by
  induction built with
  | empty => rfl
  | builtin => exact find?_ofList builtinEntries key
  | document _ _ loaded =>
    obtain ⟨-, rfl⟩ := load_eq_ok_iff.mp loaded
    exact find?_ofList _ key
  | insert tag entry _ ih => rw [find?_insert_eq_or, ih, latest?_append]
  | merge _ _ ih ih' => rw [find?_merge, ih, ih', latest?_append]

theorem find?_eq_some_iff (built : Built table entries) :
    table.find? key = some entry ↔ IsLatest entries key entry := by
  rw [built.find?_eq, latest?_eq_some_iff]

theorem find?_eq_none_iff (built : Built table entries) :
    table.find? key = none ↔ ∀ p ∈ entries, normalizeTag p.1 ≠ key := by
  rw [built.find?_eq, latest?_eq_none_iff]

theorem normalKeys (built : Built table entries) : table.NormalKeys := by
  intro key mem
  obtain ⟨entry, found⟩ := mem_tags_iff.mp mem
  obtain ⟨before, tag, after, -, rfl, -⟩ := built.find?_eq_some_iff.mp found
  exact normalizeTag_normalizeTag tag

theorem contains_iff (built : Built table entries) :
    table.contains tag = true ↔ ∃ p ∈ entries, normalizeTag p.1 = normalizeTag tag := by
  rw [← not_iff_not, Bool.not_eq_true, contains_eq_false_iff, built.find?_eq_none_iff]
  simp

/-- A table is built by reading a document, with its entries for registrations. -/
theorem of_parse {text : String} (parsed : parse text = .ok table) :
    ∃ entries, entriesOf? text = some entries ∧ Built table entries := by
  rw [parse] at parsed
  cases decoded : entriesOf? text with
  | none => simp [decoded] at parsed
  | some entries =>
    rw [decoded] at parsed
    exact ⟨entries, rfl, .document decoded (.refl _) parsed⟩

end Built

theorem insert_congr {tag' : String} (same : normalizeTag tag' = normalizeTag tag) :
    table.insert tag' entry = table.insert tag entry := by
  apply ext_find?
  intro key
  rw [find?_insert, find?_insert, same]

/-- A table has for every tag what a list of registrations says: the last entry for its normal
form, then the last one for its language, then the English symbols. -/
structure ResolvesBy (table : LocaleTable) (entries : List (String × LocaleEntry)) : Prop where
  normal : ∀ key ∈ table.tags, normalizeTag key = key
  stored : ∀ key entry, (key, entry) ∈ table.entries ↔ IsLatest entries key entry
  contained : ∀ tag,
    table.contains tag = true ↔ ∃ p ∈ entries, normalizeTag p.1 = normalizeTag tag
  own : ∀ tag entry, IsLatest entries (normalizeTag tag) entry →
    table.symbols tag = entry.resolve .english
  language : ∀ tag entry, (∀ p ∈ entries, normalizeTag p.1 ≠ normalizeTag tag) →
    IsLatest entries (languageOf (normalizeTag tag)) entry →
      table.symbols tag = entry.resolve .english
  absent : ∀ tag, (∀ p ∈ entries, normalizeTag p.1 ≠ normalizeTag tag) →
    (∀ p ∈ entries, normalizeTag p.1 ≠ languageOf (normalizeTag tag)) →
      table.symbols tag = .english
  respelled : ∀ tag tag', normalizeTag tag' = normalizeTag tag →
    table.contains tag' = table.contains tag ∧ table.symbols tag' = table.symbols tag ∧
      ∀ entry, table.insert tag' entry = table.insert tag entry
  found : ∀ key entry, (key, entry) ∈ table.entries →
    table.contains key = true ∧ table.symbols key = entry.resolve .english

theorem Built.resolvesBy (built : Built table entries) : ResolvesBy table entries where
  normal := built.normalKeys
  stored key entry := by rw [← LocaleTable.find?_eq_some_iff, built.find?_eq_some_iff]
  contained _ := built.contains_iff
  own _ _ latest := symbols_of_find? (built.find?_eq_some_iff.mpr latest)
  language _ _ none latest :=
    symbols_of_language (built.find?_eq_none_iff.mpr none) (built.find?_eq_some_iff.mpr latest)
  absent _ none noLanguage :=
    symbols_of_absent (built.find?_eq_none_iff.mpr none) (built.find?_eq_none_iff.mpr noLanguage)
  respelled tag tag' same :=
    ⟨by rw [contains, contains, same], by rw [symbols_eq, symbols_eq, same],
      fun _ => insert_congr same⟩
  found _ _ mem := built.normalKeys.symbols_of_mem mem

/-- The registrations of a history decide what its table has for every tag, and how a tag is
spelled does not count where a document is loaded either. -/
theorem resolves_latest (built : Built table entries) :
    ResolvesBy table entries ∧
      ∀ list, (load (list.map fun p => (normalizeTag p.1, p.2))).toOption =
        (load list).toOption :=
  ⟨built.resolvesBy, toOption_load_normalized⟩

theorem resolves_latest_of_respelled :
    let points := { LocaleEntry.empty with decimalSeparator := some "·" }
    let named := { LocaleEntry.empty with nanSymbol := some "NaN" }
    let marked := { LocaleEntry.empty with nanSymbol := some "?" }
    let entries :=
      builtinEntries ++ [("xx", points), ("xx_YY", named)] ++ [("\u00A0XX-yy ", marked)]
    let table :=
      (builtin.merge (ofList [("xx", points), ("xx_YY", named)])).insert "\u00A0XX-yy " marked
    Built table entries ∧ table.contains "xX_yY" = true ∧
      table.symbols "xX_yY" = marked.resolve .english ∧
        table.symbols "XX-zz" = points.resolve .english ∧
        (table.symbols "xX_yY").nanSymbol = "?" ∧ (table.symbols "xX_yY").decimalSeparator = "." ∧
          (table.symbols "XX-zz").decimalSeparator = "·" := by
  intro points named marked entries table
  have decoded : entriesOf? "[xx]\ndecimal_separator = \"·\"\n[xx_YY]\nnan_symbol = \"NaN\"\n" =
      some [("xx", points), ("xx_YY", named)] := by decide +kernel
  have loaded : load [("xx", points), ("xx_YY", named)] =
      .ok (ofList [("xx", points), ("xx_YY", named)]) :=
    load_eq_ok_iff.mpr ⟨by decide, rfl⟩
  have built : Built table entries :=
    .insert _ _ (.merge .builtin (.document decoded (.refl _) loaded))
  have region : IsLatest entries (normalizeTag "xX_yY") marked :=
    latest?_eq_some_iff.mp (by decide)
  have language : IsLatest entries (languageOf (normalizeTag "XX-zz")) points :=
    latest?_eq_some_iff.mp (by decide)
  obtain ⟨resolves, -⟩ := resolves_latest built
  have own := resolves.own _ _ region
  have fallback := resolves.language _ _ (by decide) language
  refine ⟨built, (resolves.contained _).mpr ⟨("xx_YY", named), by simp [entries], by decide⟩, own,
    fallback, ?_⟩
  rw [own, fallback]
  exact ⟨rfl, rfl, rfl⟩

end DecimalPattern.LocaleTable
