import DecimalPattern.Proofs.Locale.Registration
import DecimalPattern.Proofs.Toml.Keys

/-! # Orders of loading

The entries of a document may be visited in any order. All orders have one result just if at most
one entry is refused and, where none is, entries whose tags have the same normal form are the same.
-/

namespace DecimalPattern.LocaleTable

variable {entries order : List (String × LocaleEntry)} {p q : String × LocaleEntry}
  {error : LocaleError} {document : String}

/-- A result of loading a document, whose entries are visited in some order. -/
inductive Loads (document : String) : Except LocaleError LocaleTable → Prop
  | malformed : entriesOf? document = none → Loads document (.error .malformed)
  | visited {entries order : List (String × LocaleEntry)} :
      entriesOf? document = some entries → order.Perm entries → Loads document (load order)

theorem loads_parse (document : String) : Loads document (parse document) := by
  rw [parse]
  cases decoded : entriesOf? document with
  | none => exact .malformed decoded
  | some entries => exact .visited decoded (.refl entries)

theorem map_fst_of_mapM {values : Toml.Entries}
    (read : (values.mapM fun (tag, value) => do return (tag, ← LocaleEntry.ofValue? value)) =
      some entries) : entries.map (·.1) = values.keys := by
  induction values generalizing entries with
  | nil =>
    cases read
    rfl
  | cons head rest ih =>
    obtain ⟨tag, value⟩ := head
    rw [List.mapM_cons] at read
    obtain ⟨first, given, readRest⟩ := Option.bind_eq_some_iff.mp read
    obtain ⟨others, readOthers, eq⟩ := Option.bind_eq_some_iff.mp readRest
    obtain ⟨entry, -, kept⟩ := Option.bind_eq_some_iff.mp given
    obtain rfl : (tag, entry) = first := Option.some.inj kept
    obtain rfl : (tag, entry) :: others = entries := Option.some.inj eq
    rw [List.map_cons, ih readOthers]
    rfl

/-- The tags of the entries of a document are distinct as they are written. -/
theorem nodup_tags (decoded : entriesOf? document = some entries) :
    (entries.map (·.1)).Nodup := by
  obtain ⟨values, parsed, read⟩ := Option.bind_eq_some_iff.mp decoded
  rw [map_fst_of_mapM read]
  exact Toml.nodup_keys_of_parse? parsed

/-! ## Entries in any order -/

/-- At most one entry is refused, and the entries agree where none is. -/
structure Unambiguous (entries : List (String × LocaleEntry)) : Prop where
  refused : ∀ p ∈ entries, ∀ q ∈ entries, refusal? p ≠ none → refusal? q ≠ none → p = q
  agree : (∀ p ∈ entries, refusal? p = none) → Agree entries

theorem Unambiguous.perm (clear : Unambiguous entries) (visited : order.Perm entries) :
    Unambiguous order where
  refused p hp q hq := clear.refused p (visited.mem_iff.mp hp) q (visited.mem_iff.mp hq)
  agree accepted :=
    (clear.agree fun p hp => accepted p (visited.mem_iff.mpr hp)).perm visited

theorem Unambiguous.load_eq_error (clear : Unambiguous entries) (mem : p ∈ entries)
    (refused : refusal? p = some error) : load entries = .error error := by
  have found : (entries.findSome? refusal?).isSome :=
    List.findSome?_isSome_iff.mpr ⟨p, mem, by rw [refused]; rfl⟩
  obtain ⟨error', found⟩ := Option.isSome_iff_exists.mp found
  obtain ⟨q, hq, refused'⟩ := List.exists_of_findSome?_eq_some found
  -- The entry that is reported is the refused one, as no other is refused.
  obtain rfl : p = q := clear.refused p mem q hq (by simp [refused]) (by simp [refused'])
  rw [LocaleTable.load_eq, found, Option.some.inj (refused'.symm.trans refused)]

theorem Agree.ofList_perm (agree : Agree entries) (visited : order.Perm entries) :
    ofList order = ofList entries :=
  ofList_congr fun key => agree.latest?_perm visited key

theorem Unambiguous.load_perm (clear : Unambiguous entries) (visited : order.Perm entries) :
    load order = load entries := by
  by_cases accepted : ∀ p ∈ entries, refusal? p = none
  · have accepted' : ∀ p ∈ order, refusal? p = none :=
      fun p hp => accepted p (visited.mem_iff.mp hp)
    rw [load_eq_ok_iff.mpr ⟨accepted, rfl⟩, load_eq_ok_iff.mpr ⟨accepted', rfl⟩,
      (clear.agree accepted).ofList_perm visited]
  · push Not at accepted
    obtain ⟨p, mem, refused⟩ := accepted
    obtain ⟨error, refused⟩ := Option.ne_none_iff_exists'.mp refused
    rw [clear.load_eq_error mem refused,
      (clear.perm visited).load_eq_error (visited.mem_iff.mpr mem) refused]

/-- An entry that is refused is reported where it is visited first. -/
theorem load_eq_error_of_perm (same : ∀ order, order.Perm entries → load order = load entries)
    (mem : p ∈ entries) (refused : refusal? p = some error) : load entries = .error error := by
  rw [← same _ (List.perm_cons_erase mem).symm, load_eq, List.findSome?_cons, refused]

/-- An entry is found where it is visited last. -/
theorem latest?_of_perm (same : ∀ order, order.Perm entries → load order = load entries)
    (accepted : ∀ p ∈ entries, refusal? p = none) (mem : p ∈ entries) :
    latest? (normalizeTag p.1) entries = some p.2 := by
  have visited : (entries.erase p ++ [p]).Perm entries :=
    (List.perm_append_singleton p _).trans (List.perm_cons_erase mem).symm
  have loaded : load (entries.erase p ++ [p]) = .ok (ofList entries) :=
    (same _ visited).trans (load_eq_ok_iff.mpr ⟨accepted, rfl⟩)
  rw [← find?_ofList, ← (load_eq_ok_iff.mp loaded).2, find?_ofList, latest?_append]
  simp [latest?]

theorem unambiguous_of_perm (distinct : (entries.map (·.1)).Nodup)
    (same : ∀ order, order.Perm entries → load order = load entries) : Unambiguous entries where
  refused p hp q hq refused refused' := by
    obtain ⟨error, refused⟩ := Option.ne_none_iff_exists'.mp refused
    obtain ⟨error', refused'⟩ := Option.ne_none_iff_exists'.mp refused'
    have same_error : error = error' := by
      have reported := load_eq_error_of_perm same hp refused
      rw [load_eq_error_of_perm same hq refused'] at reported
      exact (Except.error.inj reported).symm
    obtain ⟨symbol, -, rfl⟩ := Option.map_eq_some_iff.mp refused
    obtain ⟨symbol', -, rfl⟩ := Option.map_eq_some_iff.mp refused'
    exact List.inj_on_of_nodup_map distinct hp hq (LocaleError.emptySymbol.inj same_error).1
  agree accepted p hp q hq tags := by
    have found := latest?_of_perm same accepted hp
    rw [tags, latest?_of_perm same accepted hq] at found
    exact (Option.some.inj found).symm

/-- All orders of visiting the entries of a document have one result just if the entries are
unambiguous. -/
theorem loads_unique_iff (document : String) :
    (∀ first second, Loads document first → Loads document second → first = second) ↔
      ∀ entries, entriesOf? document = some entries → Unambiguous entries := by
  constructor
  · intro unique entries decoded
    refine unambiguous_of_perm (nodup_tags decoded) fun order visited => ?_
    exact unique _ _ (.visited decoded visited) (.visited decoded (.refl entries))
  · intro clear first second loads loads'
    cases loads with
    | malformed refused =>
      cases loads' with
      | malformed => rfl
      | visited decoded => simp [decoded] at refused
    | visited decoded visited =>
      cases loads' with
      | malformed refused => simp [decoded] at refused
      | visited decoded' visited' =>
        obtain rfl := Option.some.inj (decoded.symm.trans decoded')
        rw [(clear _ decoded).load_perm visited, (clear _ decoded).load_perm visited']

/-- A tag in two spellings has the symbols of either entry, and two refused entries are reported
in either order. -/
theorem loads_of_two_spellings :
    let spelledTwice := "[xx]\nnan_symbol = \"a\"\n[XX]\nnan_symbol = \"b\"\n"
    let refusedTwice := "[xx]\nnan_symbol = \"\"\n[yy]\nnan_symbol = \"\"\n"
    (∃ first second, Loads spelledTwice (.ok first) ∧ Loads spelledTwice (.ok second) ∧
      (first.symbols "xx").nanSymbol = "b" ∧ (second.symbols "xx").nanSymbol = "a") ∧
    Loads refusedTwice (.error (.emptySymbol "xx" .nanSymbol)) ∧
      Loads refusedTwice (.error (.emptySymbol "yy" .nanSymbol)) := by
  intro spelledTwice refusedTwice
  let named (name : String) := { LocaleEntry.empty with nanSymbol := some name }
  have spelled : entriesOf? spelledTwice = some [("xx", named "a"), ("XX", named "b")] := by
    decide +kernel
  have refused : entriesOf? refusedTwice = some [("xx", named ""), ("yy", named "")] := by
    decide +kernel
  refine ⟨⟨ofList [("xx", named "a"), ("XX", named "b")],
    ofList [("XX", named "b"), ("xx", named "a")], ?_, ?_, by decide, by decide⟩, ?_, ?_⟩
  · rw [← load_eq_ok_iff.mpr ⟨by decide, rfl⟩]
    exact .visited spelled (.refl _)
  · rw [← load_eq_ok_iff.mpr ⟨by decide, rfl⟩]
    exact .visited spelled (.swap ..)
  · exact .visited refused (.refl _)
  · exact .visited refused (.swap ..)

end DecimalPattern.LocaleTable
