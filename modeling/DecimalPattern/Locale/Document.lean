import DecimalPattern.Locale.Table
import DecimalPattern.Toml.Document

/-! # Locale documents

A locale document maps tags to entries. An entry is a table of symbols by name, or an array that
gives the first symbols in their order.
-/

namespace DecimalPattern

inductive LocaleError
  /-- The text is no document, or not one of locale entries. -/
  | malformed
  | emptySymbol (tag : String) (symbol : Symbol)
  deriving DecidableEq

/-- What is wrong with a document that could be read. -/
def LocaleError.message? : LocaleError → Option String
  | malformed => none
  | emptySymbol tag symbol => some ("Locale " ++ tag ++ " has an empty " ++ symbol.name)

def Symbol.ofName? (name : String) : Option Symbol := Symbol.all.find? fun s => s.name == name

namespace LocaleEntry

def ofList (given : List (Symbol × String)) : LocaleEntry := .ofFn fun s => given.lookup s

def symbolText? (symbol : Symbol) : Toml.Value → Option (Symbol × String)
  | .string text => some (symbol, text)
  | _ => none

/-- Every key of a table names a symbol; of an array only the first seven values count. -/
def ofValue? : Toml.Value → Option LocaleEntry
  | .table _ entries =>
    (entries.mapM fun (name, value) => do symbolText? (← Symbol.ofName? name) value).map ofList
  | .array values =>
    ((Symbol.all.zip values).mapM fun (symbol, value) => symbolText? symbol value).map ofList
  | _ => none

end LocaleEntry

namespace LocaleTable

/-- Registers entries in order; the first with an empty symbol is refused. -/
def load (entries : List (String × LocaleEntry)) : Except LocaleError LocaleTable :=
  entries.foldlM
    (fun table (tag, entry) =>
      match entry.emptySymbol? with
      | some symbol => .error (.emptySymbol tag symbol)
      | none => .ok (table.insert tag entry))
    empty

/-- The entries of a document with their tags, in its order. -/
def entriesOf? (document : String) : Option (List (String × LocaleEntry)) := do
  (← Toml.parse? document).mapM fun (tag, value) => return (tag, ← LocaleEntry.ofValue? value)

def parse (document : String) : Except LocaleError LocaleTable :=
  match entriesOf? document with
  | some entries => load entries
  | none => .error .malformed

end LocaleTable

end DecimalPattern
