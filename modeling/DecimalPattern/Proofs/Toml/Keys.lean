import DecimalPattern.Toml.Document
import Mathlib.Data.List.Nodup

/-! # Keys of documents

No key of a document is defined twice at its top level, wherever its value is given.
-/

namespace DecimalPattern.Toml

variable {entries entries' : Entries} {value : Value} {path : List String} {key : String}

/-- The keys of a table, in its order. -/
def Entries.keys (entries : Entries) : List String := entries.map (·.1)

theorem Entries.not_mem_keys (absent : entries.lookup key = none) : key ∉ entries.keys := by
  intro mem
  obtain ⟨p, hp, rfl⟩ := List.mem_map.mp mem
  simpa using List.lookup_eq_none_iff.mp absent p hp

theorem Entries.keys_append_singleton :
    Entries.keys (entries ++ [(key, value)]) = entries.keys ++ [key] := by
  simp [keys]

/-- Replacing the value of a key keeps the keys. -/
theorem Entries.keys_replace (key : String) (value : Value) :
    Entries.keys (entries.map fun (k, v) => if k = key then (k, value) else (k, v)) =
      entries.keys := by
  rw [keys, List.map_map]
  refine List.map_congr_left fun p _ => ?_
  simp only [Function.comp_apply]
  split <;> rfl

theorem Entries.nodup_append (distinct : entries.keys.Nodup) (absent : entries.lookup key = none) :
    (Entries.keys (entries ++ [(key, value)])).Nodup := by
  rw [keys_append_singleton, List.nodup_append_comm, List.singleton_append, List.nodup_cons]
  exact ⟨not_mem_keys absent, distinct⟩

theorem Entries.nodup_insert (distinct : entries.keys.Nodup)
    (inserted : Entries.insert value path entries = some entries') : entries'.keys.Nodup := by
  fun_cases Entries.insert value path entries with
  | case1 => simp [Entries.insert] at inserted
  | case2 key _ present => simp [Entries.insert, present] at inserted
  | case3 key _ absent =>
    rw [Option.not_isSome_iff_eq_none] at absent
    obtain rfl : entries ++ [(key, value)] = entries' := by
      simpa [Entries.insert, absent] using inserted
    exact nodup_append distinct absent
  | case4 key path _ longer absent =>
    rw [Entries.insert.eq_3 _ _ _ _ longer, absent] at inserted
    obtain ⟨inner, -, rfl⟩ := Option.map_eq_some_iff.mp inserted
    exact nodup_append distinct absent
  | case5 key path _ longer inner found =>
    rw [Entries.insert.eq_3 _ _ _ _ longer, found] at inserted
    obtain ⟨inner', -, rfl⟩ := Option.map_eq_some_iff.mp inserted
    rwa [keys_replace]
  | case6 key path _ longer other closed found =>
    rw [Entries.insert.eq_3 _ _ _ _ longer, found] at inserted
    simp at inserted

theorem Tables.nodup_add {tables tables' : Tables} {line : Line}
    (distinct : tables.entries.keys.Nodup) (added : tables.add line = some tables') :
    tables'.entries.keys.Nodup := by
  cases line with
  | blank =>
    cases added
    exact distinct
  | header name =>
    obtain ⟨entries, inserted, rfl⟩ := Option.map_eq_some_iff.mp added
    exact Entries.nodup_insert distinct inserted
  | pair path value =>
    rw [Tables.add] at added
    split at added
    · obtain ⟨entries, inserted, rfl⟩ := Option.map_eq_some_iff.mp added
      exact Entries.nodup_insert distinct inserted
    · split at added
      · obtain ⟨inner, -, rfl⟩ := Option.map_eq_some_iff.mp added
        rwa [Entries.keys_replace]
      · cases added

theorem Tables.nodup_foldlM {lines : List Line} {tables tables' : Tables}
    (distinct : tables.entries.keys.Nodup) (added : lines.foldlM Tables.add tables = some tables') :
    tables'.entries.keys.Nodup := by
  induction lines generalizing tables with
  | nil =>
    cases added
    exact distinct
  | cons line lines ih =>
    rw [List.foldlM_cons] at added
    obtain ⟨next, first, rest⟩ := Option.bind_eq_some_iff.mp added
    exact ih (nodup_add distinct first) rest

/-- The keys of a document are distinct. -/
theorem nodup_keys_of_parse? {text : String} (parsed : parse? text = some entries) :
    entries.keys.Nodup := by
  obtain ⟨⟨lines, rest⟩, -, read⟩ := Option.bind_eq_some_iff.mp parsed
  obtain ⟨tables, added, eq⟩ := Option.bind_eq_some_iff.mp read
  obtain rfl : tables.entries = entries := Option.some.inj eq
  refine Tables.nodup_foldlM ?_ added
  exact List.nodup_nil

end DecimalPattern.Toml
