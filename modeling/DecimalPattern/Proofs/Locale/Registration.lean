import DecimalPattern.Locale.Document
import DecimalPattern.Proofs.Locale.Table

/-! # Registrations

Entries that are registered one after the other make the table that finds at a key the last of
them whose tag has that normal form. A list of entries is loaded if none of them has an empty
symbol, and refused for the first that has one.
-/

namespace DecimalPattern.LocaleTable

variable {entries others : List (String × LocaleEntry)} {table : LocaleTable}
  {entry : LocaleEntry} {key : String}

/-! ## The latest entry -/

/-- The last entry that is registered at a key. -/
def latest? (key : String) : List (String × LocaleEntry) → Option LocaleEntry
  | [] => none
  | (tag, entry) :: rest =>
    (latest? key rest).or (if normalizeTag tag = key then some entry else none)

/-- An entry is registered at a key, and none after it. -/
def IsLatest (entries : List (String × LocaleEntry)) (key : String) (entry : LocaleEntry) : Prop :=
  ∃ before tag after, entries = before ++ (tag, entry) :: after ∧ normalizeTag tag = key ∧
    ∀ p ∈ after, normalizeTag p.1 ≠ key

theorem latest?_append :
    latest? key (entries ++ others) = (latest? key others).or (latest? key entries) := by
  induction entries with
  | nil => simp [latest?]
  | cons head rest ih => simp [latest?, ih, Option.or_assoc]

theorem latest?_eq_none_iff :
    latest? key entries = none ↔ ∀ p ∈ entries, normalizeTag p.1 ≠ key := by
  induction entries with
  | nil => simp [latest?]
  | cons head rest ih => simp [latest?, ih, and_comm]

theorem latest?_eq_some_iff : latest? key entries = some entry ↔ IsLatest entries key entry := by
  constructor
  · intro found
    induction entries with
    | nil => simp [latest?] at found
    | cons head rest ih =>
      obtain ⟨tag, e⟩ := head
      rw [latest?, Option.or_eq_some_iff] at found
      rcases found with found | ⟨absent, found⟩
      · obtain ⟨before, tag', after, rfl, normal, last⟩ := ih found
        exact ⟨(tag, e) :: before, tag', after, rfl, normal, last⟩
      · rw [Option.ite_none_right_eq_some] at found
        obtain ⟨normal, same⟩ := found
        cases same
        exact ⟨[], tag, rest, rfl, normal, latest?_eq_none_iff.mp absent⟩
  · rintro ⟨before, tag, after, rfl, normal, last⟩
    rw [latest?_append, latest?, latest?_eq_none_iff.mpr last, if_pos normal]
    rfl

theorem latest?_map_normalized (entries : List (String × LocaleEntry)) :
    latest? key (entries.map fun p => (normalizeTag p.1, p.2)) = latest? key entries := by
  induction entries with
  | nil => rfl
  | cons head rest ih => rw [List.map_cons, latest?, latest?, ih, normalizeTag_normalizeTag]

theorem find?_insert_eq_or (table : LocaleTable) (tag : String) (entry : LocaleEntry)
    (key : String) :
    (table.insert tag entry).find? key = (latest? key [(tag, entry)]).or (table.find? key) := by
  rw [find?_insert, latest?, latest?]
  by_cases here : key = normalizeTag tag
  · simp [here]
  · simp [here, Ne.symm here]

theorem find?_foldl_insert (entries : List (String × LocaleEntry)) (table : LocaleTable)
    (key : String) :
    (entries.foldl (fun table (tag, entry) => table.insert tag entry) table).find? key =
      (latest? key entries).or (table.find? key) := by
  induction entries generalizing table with
  | nil => simp [latest?]
  | cons head rest ih =>
    rw [List.foldl_cons, ih, find?_insert_eq_or, ← Option.or_assoc, ← latest?_append]
    rfl

theorem find?_ofList (entries : List (String × LocaleEntry)) (key : String) :
    (ofList entries).find? key = latest? key entries := by
  rw [ofList, find?_foldl_insert, find?_empty]
  simp

theorem ofList_congr (same : ∀ key, latest? key entries = latest? key others) :
    ofList entries = ofList others := by
  apply ext_find?
  intro key
  rw [find?_ofList, find?_ofList, same]

/-! ## Entries that agree -/

/-- Entries whose tags have the same normal form are the same. -/
def Agree (entries : List (String × LocaleEntry)) : Prop :=
  ∀ p ∈ entries, ∀ q ∈ entries, normalizeTag p.1 = normalizeTag q.1 → p.2 = q.2

theorem Agree.latest?_eq_some_iff (agree : Agree entries) :
    latest? key entries = some entry ↔ ∃ tag, (tag, entry) ∈ entries ∧ normalizeTag tag = key := by
  rw [LocaleTable.latest?_eq_some_iff]
  constructor
  · rintro ⟨before, tag, after, rfl, normal, -⟩
    exact ⟨tag, by simp, normal⟩
  · rintro ⟨tag, mem, normal⟩
    cases found : latest? key entries with
    | none => exact absurd normal (latest?_eq_none_iff.mp found (tag, entry) mem)
    | some e =>
      obtain ⟨before, tag', after, eq, normal', last⟩ := LocaleTable.latest?_eq_some_iff.mp found
      have mem' : (tag', e) ∈ entries := by simp [eq]
      have same : e = entry := agree (tag', e) mem' (tag, entry) mem (normal'.trans normal.symm)
      exact ⟨before, tag', after, same ▸ eq, normal', last⟩

theorem Agree.perm (agree : Agree entries) (perm : others.Perm entries) : Agree others :=
  fun p hp q hq => agree p (perm.mem_iff.mp hp) q (perm.mem_iff.mp hq)

/-- Where entries agree, their order does not count. -/
theorem Agree.latest?_perm (agree : Agree entries) (perm : others.Perm entries) (key : String) :
    latest? key others = latest? key entries := by
  ext entry
  rw [(agree.perm perm).latest?_eq_some_iff, agree.latest?_eq_some_iff]
  simp only [perm.mem_iff]

/-! ## Loading -/

/-- The error of an entry that has an empty symbol. -/
def refusal? (p : String × LocaleEntry) : Option LocaleError :=
  p.2.emptySymbol?.map (.emptySymbol p.1)

theorem load_eq (entries : List (String × LocaleEntry)) :
    load entries =
      match entries.findSome? refusal? with
      | some error => .error error
      | none => .ok (ofList entries) := by
  rw [load, ofList]
  generalize empty = table
  induction entries generalizing table with
  | nil => rfl
  | cons head rest ih =>
    obtain ⟨tag, entry⟩ := head
    rw [List.foldlM_cons, List.findSome?_cons, refusal?]
    cases given : entry.emptySymbol? with
    | some symbol => simp [given, bind, Except.bind]
    | none => simpa [given, bind, Except.bind] using ih (table.insert tag entry)

theorem load_eq_ok_iff :
    load entries = .ok table ↔ (∀ p ∈ entries, refusal? p = none) ∧ ofList entries = table := by
  rw [load_eq, ← List.findSome?_eq_none_iff]
  cases entries.findSome? refusal? <;> simp

theorem toOption_load_eq_some_iff :
    (load entries).toOption = some table ↔ load entries = .ok table := by
  cases load entries <;> simp [Except.toOption]

/-- Only the normal forms of the tags count for the table of a list of entries. -/
theorem toOption_load_normalized (entries : List (String × LocaleEntry)) :
    (load (entries.map fun p => (normalizeTag p.1, p.2))).toOption = (load entries).toOption := by
  have same : ofList (entries.map fun p => (normalizeTag p.1, p.2)) = ofList entries :=
    ofList_congr fun _ => latest?_map_normalized entries
  ext table
  rw [toOption_load_eq_some_iff, toOption_load_eq_some_iff, load_eq_ok_iff, load_eq_ok_iff, same,
    List.forall_mem_map]
  simp only [refusal?, Option.map_eq_none_iff]

end DecimalPattern.LocaleTable
