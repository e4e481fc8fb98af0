import DecimalPattern.Toml.Number

/-! # Documents of tables

A document is a list of tables under their names. Headers name single tables; one with a longer key
or an array of tables is refused, as what it opens is nested too deep.
-/

namespace DecimalPattern.Toml

open Reader

inductive Value
  | string (s : String)
  /-- A number, a truth value or a time. -/
  | scalar
  | array (values : List Value)
  /-- A dotted table comes from a dotted key, which later keys may extend. -/
  | table (dotted : Bool) (entries : List (String × Value))

abbrev Entries := List (String × Value)

/-- Adds a value at a path. No key is defined twice, and only dotted tables are extended. -/
def Entries.insert (value : Value) : List String → Entries → Option Entries
  | [], _ => none
  | [key], entries =>
    if (entries.lookup key).isSome then none else some (entries ++ [(key, value)])
  | key :: path, entries =>
    match entries.lookup key with
    | none => (Entries.insert value path []).map fun inner => entries ++ [(key, .table true inner)]
    | some (.table true inner) =>
      (Entries.insert value path inner).map fun inner =>
        entries.map fun (k, v) => if k = key then (k, .table true inner) else (k, v)
    | some _ => none

/-- A value at a path, each given by a reader. -/
def pair (value : Reader Value) : Reader (List String × Value) := do
  let path ← key
  char '='
  spaces
  return (path, ← value)

def array (value : Reader Value) : Reader Value := do
  char '['
  let values ← optional (separated (do blankLines; let v ← value; blankLines; return v) (char ','))
  let _ ← optional (if values.isSome then char ',' else failure)
  blankLines
  char ']'
  return .array (values.getD [])

def inlineTable (value : Reader Value) : Reader Value := do
  char '{'
  let pairs ← optional (separated (do let p ← pair value; spaces; return p) (char ','))
  spaces
  char '}'
  let entries ← (pairs.getD []).foldlM (fun entries (path, v) => Entries.insert v path entries) []
  return .table false entries

/-- Arrays and inline tables nest up to a depth. -/
def value : (depth : Nat) → Reader Value
  | 0 => (do return .string (← string)) <|> scalar
  | depth + 1 =>
    (do return .string (← string)) <|> scalar <|> array (value depth)
      <|> inlineTable (value depth)
where
  scalar : Reader Value := do
    word "true" <|> word "false" <|> dateTime <|> finiteFloat <|> specialFloat <|> integer
    return .scalar

/-- Values lie inside fewer than eighty others. -/
def maxDepth : Nat := 79

inductive Line
  | blank
  | header (name : String)
  | pair (path : List String) (value : Value)

def header : Reader String := do
  char '['
  let path ← key
  char ']'
  match path with
  | [name] => return name
  | _ => failure

def line : Reader Line := do
  spaces
  match ← peek with
  | some '#' => comment; newline <|> atEnd; return .blank
  | some '\n' | some '\r' => newline; return .blank
  | some '[' => let name ← header; lineEnd; return .header name
  | _ => let (path, v) ← pair (value maxDepth); lineEnd; return .pair path v

/-- The lines of a text, which may start with a byte order mark. -/
def lines : Reader (List Line) := do
  let _ ← optional (char '\uFEFF')
  let lines ← many line
  spaces
  atEnd
  return lines

/-- The tables read so far, and the name of the one that lines are added to. -/
structure Tables where
  entries : Entries
  current : Option String

def Tables.add (tables : Tables) : Line → Option Tables
  | .blank => some tables
  | .header name =>
    (Entries.insert (.table false []) [name] tables.entries).map fun entries => ⟨entries, name⟩
  | .pair path v =>
    match tables.current with
    | none => (Entries.insert v path tables.entries).map fun entries => ⟨entries, none⟩
    | some name =>
      match tables.entries.lookup name with
      | some (.table dotted inner) =>
        (Entries.insert v path inner).map fun inner =>
          ⟨tables.entries.map fun (k, v) => if k = name then (k, .table dotted inner) else (k, v),
            name⟩
      | _ => none

/-- The top level of a document. -/
def parse? (text : String) : Option Entries := do
  let (lines, _) ← lines text.toList
  let tables ← lines.foldlM Tables.add ⟨[], none⟩
  return tables.entries

end DecimalPattern.Toml
