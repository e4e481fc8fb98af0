import DecimalPattern.Text.Width

/-! # Digit groups

Groups are cut off from the right: one of the primary size, then as many of the secondary size as
leave something over. Sizes count bytes, so that digits written with a wide pad character may not
be cut; every cut of ASCII digits succeeds.
-/

namespace DecimalPattern

namespace Grouping

/-- Cuts reversed digits into groups of a size, the last of which may be shorter. -/
def outerGroups? (size : Nat) (reversed : List Char) : Option (List (List Char)) :=
  if 0 < size ∧ size < byteWidth reversed then
    match _ : takeBytes? size reversed with
    | some (group, rest) => (outerGroups? size rest).map (group :: ·)
    | none => none
  else some [reversed]
termination_by reversed.length
decreasing_by exact length_lt_of_takeBytes? ‹0 < size ∧ _›.1 ‹_›

/-- The groups of a digit string from left to right. -/
def groups? (primary secondary : Nat) (digits : List Char) : Option (List (List Char)) :=
  if primary = 0 ∨ byteWidth digits ≤ primary then some [digits]
  else do
    let (last, rest) ← takeBytes? primary digits.reverse
    let outer ← outerGroups? secondary rest
    return ((last :: outer).map List.reverse).reverse

end Grouping

/-- The groups with a separator between any two. -/
def groupInteger? (digits : List Char) (primary secondary : Nat) (separator : String) :
    Option String :=
  (Grouping.groups? primary secondary digits).map fun groups =>
    separator.intercalate (groups.map String.ofList)

end DecimalPattern
