import DecimalPattern.Format.Exponential
import DecimalPattern.Format.Fixed
import DecimalPattern.Format.Grouping

/-! # Formatting numbers

The value is scaled and written between the affixes of its sign, by one of five strategies.
Not-a-number and infinity show a symbol. There is no result where a number of digits or of places
leaves the 32-bit range, or where a group would end inside a wide pad character.
-/

namespace DecimalPattern

inductive Strategy
  /-- Not-a-number or an infinity. -/
  | special
  /-- Only the affixes are shown. -/
  | literal
  | exponential
  | significant
  | fixed
  deriving DecidableEq

def Strategy.select (layout : Layout) (scaled : Binary64) : Strategy :=
  if !scaled.isFinite then special
  else if layout.literal then literal
  else if layout.exponential then exponential
  else if layout.significance then significant
  else fixed

/-- What a strategy makes of a number. -/
structure NumberText where
  integer : String
  fraction : List Char
  exponent : Option String
  deriving DecidableEq

/-- The separator is shown only before digits. -/
def NumberText.write (text : NumberText) (symbols : Symbols) : String :=
  let fraction :=
    if text.fraction.isEmpty then "" else symbols.decimalSeparator ++ String.ofList text.fraction
  let exponent :=
    match text.exponent with
    | some exponent => symbols.exponentSymbol ++ exponent
    | none => ""
  text.integer ++ fraction ++ exponent

namespace Layout

def group? (layout : Layout) (symbols : Symbols) (digits : List Char) : Option String :=
  if layout.grouping then
    groupInteger? digits layout.primaryGroup layout.secondaryGroup symbols.thousandsSeparator
  else some (String.ofList digits)

def numberText? (layout : Layout) (symbols : Symbols) (scaled : Binary64) : Option NumberText :=
  match Strategy.select layout scaled with
  | .special =>
    let symbol := if scaled = .nan then symbols.nanSymbol else symbols.infinitySymbol
    some ⟨symbol, [], none⟩
  | .literal => some ⟨"", [], none⟩
  | .exponential => do
    let digits ← layout.formatExponential? symbols scaled
    return ⟨String.ofList digits.mantissa.integer, digits.mantissa.fraction, some digits.exponent⟩
  | .significant => do
    let digits ←
      splitSignificant? scaled layout.significantMin layout.significantMax layout.pad
    return ⟨← layout.group? symbols digits.integer, digits.fraction, none⟩
  | .fixed => do
    let digits ← layout.formatFixed? scaled
    return ⟨← layout.group? symbols digits.integer, digits.fraction, none⟩

def affixes (layout : Layout) (value : Binary64) : Affixes :=
  if value.isNegative then layout.negative else layout.positive

def format? (layout : Layout) (symbols : Symbols) (value : Binary64) : Option String := do
  let text ← layout.numberText? symbols (value.scale layout.scale)
  return (layout.affixes value).before ++ text.write symbols ++ (layout.affixes value).after

end Layout

namespace NumberFormat

/-- Zero has a layout of its own where the pattern gives one. -/
def layoutFor (format : NumberFormat) (value : Binary64) : Layout :=
  if value.isZero then format.zero.getD format.layout else format.layout

def format? (format : NumberFormat) (symbols : Symbols) (value : Binary64) : Option String :=
  (format.layoutFor value).format? symbols value

end NumberFormat

end DecimalPattern
