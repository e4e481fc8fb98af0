import DecimalPattern.Toml.Reader

/-! # Blanks, comments, strings and keys

Control characters other than the tab are refused everywhere, and a line ends with a line feed or
a carriage return before a line feed.
-/

namespace DecimalPattern.Toml

open Reader

def isSpace (c : Char) : Bool := c == ' ' || c == '\t'

/-- A character that may stand in a comment. -/
def isPrintable (c : Char) : Bool := c == '\t' || (' ' ≤ c && c != '\x7f')

def isBareKey (c : Char) : Bool := c.isAlphanum || c == '-' || c == '_'

def isHexDigit (c : Char) : Bool := c.isDigit || ('a' ≤ c && c ≤ 'f') || ('A' ≤ c && c ≤ 'F')

def hexValue (c : Char) : Nat :=
  if c.isDigit then c.toNat - '0'.toNat
  else if 'a' ≤ c then c.toNat - 'a'.toNat + 10
  else c.toNat - 'A'.toNat + 10

/-- The number that digits of a base stand for. -/
def numberOf (base : Nat) (digits : List Char) : Nat :=
  digits.foldl (fun n c => n * base + hexValue c) 0

def spaces : Reader Unit := do
  let _ ← span isSpace

def newline : Reader Unit := char '\n' <|> word "\r\n"

def comment : Reader Unit := do
  char '#'
  let _ ← span isPrintable

/-- The rest of a line after its content. -/
def lineEnd : Reader Unit := do
  spaces
  let _ ← optional comment
  newline <|> atEnd

/-- Blanks, line ends and comments between the values of an array. -/
def blankLines : Reader Unit := do
  spaces
  let _ ← many (do
    let _ ← optional comment
    newline
    spaces)

/-- A Unicode scalar value written with so many hexadecimal digits. -/
def codePoint (width : Nat) : Reader Char := do
  let digits ← (List.replicate width ()).mapM fun _ => satisfy isHexDigit
  let n := numberOf 16 digits
  if n.isValidChar then return Char.ofNat n else failure

def escape : Reader Char := do
  char '\\'
  match ← satisfy fun _ => true with
  | 'b' => return '\x08'
  | 't' => return '\t'
  | 'n' => return '\n'
  | 'f' => return '\x0c'
  | 'r' => return '\r'
  | '"' => return '"'
  | '\\' => return '\\'
  | 'u' => codePoint 4
  | 'U' => codePoint 8
  | _ => failure

def isBasic (c : Char) : Bool := isPrintable c && c != '"' && c != '\\'

def isLiteral (c : Char) : Bool := isPrintable c && c != '\''

def basicString : Reader String := do
  char '"'
  let cs ← many (satisfy isBasic <|> escape)
  char '"'
  return String.ofList cs

def literalString : Reader String := do
  char '\''
  let cs ← span isLiteral
  char '\''
  return String.ofList cs

/-- A backslash at the end of a line drops it with all blanks and lines up to the next text. -/
def continuation : Reader Unit := do
  char '\\'
  spaces
  newline
  let _ ← many (newline <|> do let _ ← satisfy isSpace)

/-- One or two quotes inside a multi-line string. -/
def innerQuotes (quote : Char) : Reader (List Char) := do
  let quotes ← span (· == quote)
  if 1 ≤ quotes.length && quotes.length ≤ 2 then return quotes else failure

/-- A multi-line string drops a line end at its start. Up to two quotes may stand directly before
the three that close it. -/
def multiline (quote : Char) (item : Reader (List Char)) : Reader String := do
  char quote; char quote; char quote
  let _ ← optional newline
  let content ← many
    (item <|> (do newline; return ['\n']) <|> innerQuotes quote)
  let closing ← span (· == quote)
  if 3 ≤ closing.length && closing.length ≤ 5 then
    return String.ofList (content.flatten ++ closing.drop 3)
  else failure

def multilineBasic : Reader String :=
  multiline '"'
    ((do return [← satisfy isBasic]) <|> (do continuation; return []) <|> (do return [← escape]))

def multilineLiteral : Reader String := multiline '\'' (do return [← satisfy isLiteral])

def string : Reader String :=
  multilineBasic <|> basicString <|> multilineLiteral <|> literalString

def bareKey : Reader String := do
  let first ← satisfy isBareKey
  let others ← span isBareKey
  return String.ofList (first :: others)

def simpleKey : Reader String := bareKey <|> basicString <|> literalString

/-- A dotted key has fewer than eighty parts. -/
def key : Reader (List String) := do
  let path ← separated (do spaces; let k ← simpleKey; spaces; return k) (char '.')
  if path.length < 80 then return path else failure

end DecimalPattern.Toml
