import DecimalPattern.Locale.Symbols
import DecimalPattern.Text.Blank

/-! # Locale tables

A table holds an entry for each of a number of tags, ordered by tag. Tags are compared after
normalisation; a tag without an entry is looked up by its language, the part before its first
hyphen, and one that is not found there either has the English symbols.
-/

namespace DecimalPattern

/-- Blanks at the ends are dropped, underscores are hyphens, and ASCII letters are small. -/
def normalizeTag (tag : String) : String :=
  String.ofList ((trimBlank tag.toList).map fun c => if c = '_' then '-' else c.toLower)

/-- The part of a tag before its first hyphen. -/
def languageOf (tag : String) : String := String.ofList (tag.toList.takeWhile (· != '-'))

namespace LocaleTable

/-- Puts a value at a key into an ordered list, replacing the one that is there. -/
def insertSorted {α : Type} (key : String) (value : α) :
    List (String × α) → List (String × α)
  | [] => [(key, value)]
  | (k, v) :: rest =>
    if key < k then (key, value) :: (k, v) :: rest
    else if key = k then (key, value) :: rest
    else (k, v) :: insertSorted key value rest

theorem mem_insertSorted {α : Type} {key : String} {value : α} {list : List (String × α)}
    {p : String × α} (h : p ∈ insertSorted key value list) : p = (key, value) ∨ p ∈ list := by
  fun_induction insertSorted key value list <;> grind

theorem lookup_insertSorted {α : Type} (key : String) (value : α) (list : List (String × α))
    (k : String) :
    (insertSorted key value list).lookup k = if k = key then some value else list.lookup k := by
  fun_induction insertSorted key value list <;> grind

/-- Keys in strictly increasing order. -/
def Sorted {α : Type} (list : List (String × α)) : Prop := list.Pairwise (·.1 < ·.1)

theorem sorted_insertSorted {α : Type} (key : String) (value : α) {list : List (String × α)}
    (h : Sorted list) : Sorted (insertSorted key value list) := by
  induction list with
  | nil => simp [insertSorted, Sorted]
  | cons head rest ih =>
    obtain ⟨k, v⟩ := head
    obtain ⟨first, others⟩ := List.pairwise_cons.mp h
    unfold insertSorted
    split
    next below =>
      refine List.pairwise_cons.mpr ⟨fun p mem => ?_, h⟩
      rcases List.mem_cons.mp mem with rfl | mem
      · exact below
      · exact String.lt_trans below (first p mem)
    next notBelow =>
      split
      next equal => exact List.pairwise_cons.mpr ⟨equal ▸ first, others⟩
      next differs =>
        refine List.pairwise_cons.mpr ⟨fun p mem => ?_, ih others⟩
        rcases mem_insertSorted mem with rfl | mem
        · have above := String.not_lt.mp notBelow
          exact String.not_le.mp fun le => differs (String.le_antisymm le above)
        · exact first p mem

end LocaleTable

structure LocaleTable where
  entries : List (String × LocaleEntry)
  sorted : LocaleTable.Sorted entries
  deriving DecidableEq

namespace LocaleTable

def empty : LocaleTable := ⟨[], .nil⟩

def tags (table : LocaleTable) : List String := table.entries.map (·.1)

/-- Registers an entry, which replaces the one with the same normalised tag. -/
def insert (table : LocaleTable) (tag : String) (entry : LocaleEntry) : LocaleTable :=
  ⟨insertSorted (normalizeTag tag) entry table.entries, sorted_insertSorted _ _ table.sorted⟩

/-- The entry at a normalised tag. -/
def find? (table : LocaleTable) (tag : String) : Option LocaleEntry := table.entries.lookup tag

theorem find?_insert (table : LocaleTable) (tag : String) (entry : LocaleEntry) (key : String) :
    (table.insert tag entry).find? key =
      if key = normalizeTag tag then some entry else table.find? key :=
  lookup_insertSorted ..

def contains (table : LocaleTable) (tag : String) : Bool :=
  (table.find? (normalizeTag tag)).isSome

/-- Both sets of entries, those of the second table winning. -/
def merge (table other : LocaleTable) : LocaleTable :=
  other.entries.foldl
    (fun merged (tag, entry) =>
      ⟨insertSorted tag entry merged.entries, sorted_insertSorted _ _ merged.sorted⟩)
    table

def lookup? (table : LocaleTable) (tag : String) : Option LocaleEntry :=
  table.find? (normalizeTag tag) <|> table.find? (languageOf (normalizeTag tag))

def symbols (table : LocaleTable) (tag : String) : Symbols :=
  match table.lookup? tag with
  | some entry => entry.resolve Symbols.english
  | none => Symbols.english

/-- The table of a list of entries with their tags, later ones winning. -/
def ofList (entries : List (String × LocaleEntry)) : LocaleTable :=
  entries.foldl (fun table (tag, entry) => table.insert tag entry) empty

end LocaleTable

end DecimalPattern
