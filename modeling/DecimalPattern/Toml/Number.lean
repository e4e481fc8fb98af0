import DecimalPattern.Binary64.Magnitude
import DecimalPattern.Toml.Lexeme

/-! # Numbers and times

Numbers and times are only recognised. Integers fit into 64 bits, and a float that is not negative
stays below the overflow of binary64.
-/

namespace DecimalPattern.Toml

-- Powers of natural numbers are the built-in ones, also beside the monoids of algebra.
attribute [local instance (2000)] instPowNat

open Reader

/-- Digits with single underscores between them. -/
def digitRun (isDigit : Char → Bool) : Reader (List Char) := do
  let first ← satisfy isDigit
  let others ← many (do let _ ← optional (char '_'); satisfy isDigit)
  return first :: others

/-- Whether a number has a minus. -/
def sign : Reader Bool :=
  (do char '-'; return true) <|> (do let _ ← optional (char '+'); return false)

/-- A decimal integer without leading zeros, with its sign. -/
def signedDigits : Reader (Bool × List Char) := do
  let negative ← sign
  let digits ← digitRun Char.isDigit
  if digits.length = 1 || digits.head? != some '0' then return (negative, digits) else failure

def decimalInteger : Reader Unit := do
  let (negative, digits) ← signedDigits
  let limit := if negative then 2 ^ (63 : Nat) + 1 else 2 ^ (63 : Nat)
  if numberOf 10 digits < limit then return else failure

def basedInteger (start : String) (base : Nat) (isDigit : Char → Bool) : Reader Unit := do
  word start
  let digits ← digitRun isDigit
  if numberOf base digits < 2 ^ (63 : Nat) then return else failure

def integer : Reader Unit :=
  basedInteger "0x" 16 isHexDigit
    <|> basedInteger "0o" 8 (fun c => '0' ≤ c && c ≤ '7')
    <|> basedInteger "0b" 2 (fun c => c == '0' || c == '1')
    <|> decimalInteger

def exponentPart : Reader Int := do
  let _ ← satisfy fun c => c == 'e' || c == 'E'
  let negative ← sign
  let n := numberOf 10 (← digitRun Char.isDigit)
  return if negative then -n else n

/-- Whether `coefficient * 10 ^ exponent` rounds to infinity. Outside a range of exponents the
number of digits tells. -/
def overflows (coefficient : Nat) (exponent : Int) : Bool :=
  let size := exponent + (toString coefficient).length
  if coefficient = 0 || size < 300 then false
  else if 320 < size then true
  else
    let num := coefficient * 10 ^ exponent.toNat * Magnitude.one
    !(Magnitude.round num (10 ^ (-exponent).toNat)).isFinite

def finiteFloat : Reader Unit := do
  let (negative, whole) ← signedDigits
  let fraction ← optional (do char '.'; digitRun Char.isDigit)
  let exponent ← optional exponentPart
  let places := fraction.getD []
  if fraction.isNone && exponent.isNone then failure
  else if !negative
      && overflows (numberOf 10 (whole ++ places)) (exponent.getD 0 - places.length) then failure
  else return

def specialFloat : Reader Unit := do
  let _ ← sign
  word "inf" <|> word "nan"

/-- Two digits within bounds. -/
def twoDigits (least most : Nat) : Reader Nat := do
  let tens ← satisfy Char.isDigit
  let ones ← satisfy Char.isDigit
  let n := numberOf 10 [tens, ones]
  if least ≤ n && n ≤ most then return n else failure

def daysInMonth (year month : Nat) : Nat :=
  if month = 2 then
    if year % 4 = 0 && (year % 100 != 0 || year % 400 = 0) then 29 else 28
  else if month = 4 || month = 6 || month = 9 || month = 11 then 30
  else 31

def date : Reader Unit := do
  let year ← (List.replicate 4 ()).mapM fun _ => satisfy Char.isDigit
  char '-'
  let month ← twoDigits 1 12
  char '-'
  let _ ← twoDigits 1 (daysInMonth (numberOf 10 year) month)

/-- A minute may have a leap second. -/
def time : Reader Unit := do
  let _ ← twoDigits 0 23
  char ':'
  let _ ← twoDigits 0 59
  char ':'
  let _ ← twoDigits 0 60
  let _ ← optional (do char '.'; let _ ← satisfy Char.isDigit; span Char.isDigit)

def timeOffset : Reader Unit :=
  (do let _ ← satisfy fun c => c == 'Z' || c == 'z') <|> do
    let _ ← satisfy fun c => c == '+' || c == '-'
    let _ ← twoDigits 0 23
    char ':'
    let _ ← twoDigits 0 59

def dateTime : Reader Unit :=
  (do
    date
    let _ ← optional (do
      let _ ← satisfy fun c => c == 'T' || c == 't' || c == ' '
      time
      optional timeOffset)) <|> time

end DecimalPattern.Toml
