/-! # Numeric cores

The core of a section is a list of tokens: digit placeholders, the decimal point, grouping
separators and an exponent. Reading takes the longest core at the start of a text.
-/

namespace DecimalPattern

inductive Digit
  /-- A literal digit, always shown. -/
  | required (c : Char)
  /-- Shown only where needed. -/
  | optional
  | significant
  deriving DecidableEq

structure Exponent where
  /-- Whether an exponent that is not negative has a sign. -/
  plus : Bool
  minDigits : Nat
  deriving DecidableEq

inductive Token
  | digit (d : Digit)
  | point
  | grouping
  | exponent (e : Exponent)
  deriving DecidableEq

namespace Token

def isDigit : Token → Bool
  | digit _ => true
  | _ => false

def isRequired : Token → Bool
  | digit (.required _) => true
  | _ => false

def isOptional (t : Token) : Bool := t == digit .optional

def isSignificant (t : Token) : Bool := t == digit .significant

def isGrouping (t : Token) : Bool := t == grouping

/-- The digits of an exponent are written as zeros. -/
def render : Token → List Char
  | digit (.required c) => [c]
  | digit .optional => ['#']
  | digit .significant => ['@']
  | point => ['.']
  | grouping => [',']
  | exponent e => 'E' :: (if e.plus then ['+'] else []) ++ List.replicate e.minDigits '0'

/-- The tokens on either side of the point. -/
def ofChar? (c : Char) : Option Token :=
  if c = '#' then some (digit .optional)
  else if c = '@' then some (digit .significant)
  else if c = ',' then some grouping
  else if c.isDigit then some (digit (.required c))
  else none

end Token

/-- A character that starts a core. -/
def startsCore (c : Char) : Bool := c == '.' || (Token.ofChar? c).isSome

abbrev Core := List Token

namespace Core

def render (core : Core) : String := String.ofList (core.flatMap Token.render)

def readRun : List Char → Core × List Char
  | [] => ([], [])
  | c :: cs =>
    match Token.ofChar? c with
    | some t => let (tokens, rest) := readRun cs; (t :: tokens, rest)
    | none => ([], c :: cs)

/-- A run, and after a point a second one. -/
def readMantissa (cs : List Char) : Core × List Char :=
  match readRun cs with
  | (integer, '.' :: rest) =>
    let (fraction, rest) := readRun rest
    (integer ++ .point :: fraction, rest)
  | mantissa => mantissa

def readExponent? : List Char → Option (Exponent × List Char)
  | 'E' :: '+' :: cs => some (⟨true, (cs.takeWhile Char.isDigit).length⟩, cs.dropWhile Char.isDigit)
  | 'E' :: cs => some (⟨false, (cs.takeWhile Char.isDigit).length⟩, cs.dropWhile Char.isDigit)
  | _ => none

/-- An exponent stands only after another token. -/
def read (cs : List Char) : Core × List Char :=
  match readMantissa cs with
  | ([], rest) => ([], rest)
  | (mantissa, rest) =>
    match readExponent? rest with
    | some (e, rest) => (mantissa ++ [.exponent e], rest)
    | none => (mantissa, rest)

/-- A core cut at its point and before its exponent. -/
structure Parts where
  integer : List Token
  fraction? : Option (List Token)
  exponent? : Option Exponent

namespace Parts

def fraction (parts : Parts) : List Token := parts.fraction?.getD []

def hasGrouping (parts : Parts) : Bool :=
  (parts.integer ++ parts.fraction).any Token.isGrouping

def hasSignificance (parts : Parts) : Bool :=
  (parts.integer ++ parts.fraction).any Token.isSignificant

end Parts

def exponent? (core : Core) : Option Exponent :=
  match core.getLast? with
  | some (.exponent e) => some e
  | _ => none

def mantissa (core : Core) : List Token :=
  if core.exponent?.isSome then core.dropLast else core

def parts (core : Core) : Parts where
  integer := core.mantissa.takeWhile (· != .point)
  fraction? := (core.mantissa.dropWhile (· != .point)).tail?
  exponent? := core.exponent?

end Core

end DecimalPattern
