import DecimalPattern.Format.Basic
import DecimalPattern.Layout.Compile
import DecimalPattern.Locale.Builtin

/-! # Formatters

A number format together with the symbols of one locale.
-/

namespace DecimalPattern

structure Formatter where
  format : NumberFormat
  symbols : Symbols
  deriving DecidableEq

namespace Formatter

/-- Compiles a pattern and takes the symbols of a tag from a table. -/
def ofTable (pattern tag : String) (table : LocaleTable) : Except PatternError Formatter := do
  return ⟨← NumberFormat.compile pattern, table.symbols tag⟩

def ofLocale (pattern tag : String) : Except PatternError Formatter :=
  ofTable pattern tag .builtin

def formatNumber? (formatter : Formatter) (value : Binary64) : Option String :=
  formatter.format.format? formatter.symbols value

def formatText (formatter : Formatter) (text : String) : String :=
  formatter.format.formatText text

end Formatter

end DecimalPattern
