import DecimalPattern.Binary64.Arithmetic
import DecimalPattern.Binary64.Shortest
import DecimalPattern.Layout.Basic
import DecimalPattern.Text.Width

/-! # Fixed notation

Both parts come from one rounded value, so that a carry out of the fraction reaches the integer.
-/

namespace DecimalPattern

/-- Adds pad characters until the text is `width` bytes wide. -/
def padRight (width : Nat) (pad : Char) (digits : List Char) : List Char :=
  digits ++
    List.replicate ((width - byteWidth digits + pad.utf8Size - 1) / pad.utf8Size) pad

/-- The digits of a whole number, the last of them where there is an upper bound. A zero is shown
only where a digit is required. -/
def padInteger (whole : Binary64) (least : Nat) (most : Option Nat) (pad : Char) : List Char :=
  if whole.isZero ∧ least = 0 then []
  else
    let digits := whole.numeral.integer
    let shown :=
      match most with
      | some most => digits.drop (digits.length - most)
      | none => digits
    shown.leftpad least pad

namespace Layout

/-- A whole value shows the required digits as zeros. -/
def fractionOf (layout : Layout) (value rounded : Binary64) : List Char :=
  if value.isWhole then List.replicate layout.fractionMin '0'
  else padRight layout.fractionMin layout.pad (rounded.numeral.fraction.take layout.fractionMax)

def formatFixed? (layout : Layout) (value : Binary64) : Option Numeral := do
  let value := value.abs
  let rounded ← value.roundHalfEven? (Int32.ofNat layout.fractionMax)
  let integer := padInteger rounded.floor layout.integerMin layout.integerMax layout.pad
  return ⟨integer, layout.fractionOf value rounded⟩

end Layout

end DecimalPattern
