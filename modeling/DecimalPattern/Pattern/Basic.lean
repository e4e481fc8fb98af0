import DecimalPattern.Pattern.CoreRule
import DecimalPattern.Pattern.Section
import DecimalPattern.Text.Width

/-! # Patterns

A pattern has up to four sections, parted by semicolons: for positive numbers, negative numbers,
zero and text. The empty pattern stands for the default pattern.
-/

namespace DecimalPattern

inductive PatternError
  /-- A quote that is never closed, with its position in bytes. -/
  | unterminatedQuote (pattern : String) (position : Nat)
  | tooManySections (pattern : String) (count : Nat)
  /-- A core that breaks a structural rule. -/
  | brokenRule (rule : CoreRule) (fragment : String)
  deriving DecidableEq

def PatternError.message : PatternError → String
  | unterminatedQuote pattern position =>
    s!"Unterminated quote at offset {position} in pattern: {pattern}"
  | tooManySections pattern count =>
    s!"Pattern has {count} subpatterns, at most 4 are allowed: {pattern}"
  | brokenRule rule fragment => rule.message ++ ": " ++ fragment

namespace Template

/-- All further sections, read as templates. -/
def readAll : List Char → List Template × List Char
  | ';' :: cs =>
    let first := read cs
    let others := readAll first.2
    (first.1 :: others.1, others.2)
  | cs => ([], cs)
termination_by cs => cs.length
decreasing_by
  have := Segment.length_read_le (· == ';')
    (fun c => if c = '@' then some Placeholder.text else none) cs
  simp only [Template.read, List.length_cons]
  omega

end Template

structure Pattern where
  source : String
  positive : NumberSection
  negative : Option NumberSection
  zero : Option NumberSection
  text : Option Template
  deriving DecidableEq

namespace Pattern

def defaultSource : String := "#,##0.###;-#,##0.###;0;@"

/-- Every section reads as far as it can; what is left after the last starts with a stray quote. -/
def parse (pattern : String) : Except PatternError Pattern :=
  let source := if pattern.isEmpty then defaultSource else pattern
  let cs := source.toList
  let (positive, rest) := NumberSection.read cs
  let (negative, rest) := NumberSection.readNext? rest
  let (zero, rest) := NumberSection.readNext? rest
  let (templates, rest) := Template.readAll rest
  let count := 1 + negative.toList.length + zero.toList.length + templates.length
  if !rest.isEmpty then .error (.unterminatedQuote source (byteWidth (consumed cs rest)))
  else if 4 < count then .error (.tooManySections source count)
  else .ok ⟨source, positive, negative, zero, templates.head?⟩

end Pattern

end DecimalPattern
