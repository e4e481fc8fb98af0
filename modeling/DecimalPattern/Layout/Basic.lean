import DecimalPattern.Pattern.Basic

/-! # Layouts

A layout says how numbers of one kind are written: the strategy, the bounds on the digits, the
group sizes and the affixes. A number format is a layout with the ways to write zero and text.
-/

namespace DecimalPattern

/-- The text around a number. -/
structure Affixes where
  before : String
  after : String
  deriving DecidableEq

/-- An upper bound that is absent is no limit. -/
structure Layout where
  source : String
  significance : Bool
  exponential : Bool
  grouping : Bool
  exponentPlus : Bool
  /-- Only the affixes are shown. -/
  literal : Bool
  integerMin : Nat
  integerMax : Option Nat
  fractionMin : Nat
  fractionMax : Nat
  significantMin : Nat
  significantMax : Option Nat
  exponentMin : Nat
  /-- The digits in the group at the decimal point; none where it is zero. -/
  primaryGroup : Nat
  /-- The digits in each further group; a single group where it is zero. -/
  secondaryGroup : Nat
  positive : Affixes
  negative : Affixes
  pad : Char
  scale : Nat
  deriving DecidableEq

structure NumberFormat where
  layout : Layout
  zero : Option Layout
  text : Option Template
  deriving DecidableEq

/-- Without a template the text stays as it is. -/
def NumberFormat.formatText (format : NumberFormat) (text : String) : String :=
  match format.text with
  | some template => template.render text
  | none => text

end DecimalPattern
