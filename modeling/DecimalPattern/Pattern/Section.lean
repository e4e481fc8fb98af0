import DecimalPattern.Pattern.Core
import DecimalPattern.Pattern.Segment

/-! # Sections for numbers and for text

A section for numbers is an affix, a core and a second affix; the first affix ends where a core can
start, the second at a semicolon. A section for text is a template in which `@` stands for the text.
-/

namespace DecimalPattern

/-- A mark in an affix, which scales the number. -/
inductive ScaleMark
  | percent
  | permille
  deriving DecidableEq

namespace ScaleMark

def ofChar? (c : Char) : Option ScaleMark :=
  if c = '%' then some percent else if c = '‰' then some permille else none

def render : ScaleMark → String
  | percent => "%"
  | permille => "‰"

end ScaleMark

abbrev Affix := List (Segment ScaleMark)

namespace Affix

def render (affix : Affix) : String := Segment.render ScaleMark.render affix

def readBeforeCore (cs : List Char) : Affix × List Char :=
  Segment.read (fun c => c == ';' || startsCore c) ScaleMark.ofChar? cs

def readAfterCore (cs : List Char) : Affix × List Char :=
  Segment.read (· == ';') ScaleMark.ofChar? cs

end Affix

/-- What was read of a text when `rest` is left of it. -/
def consumed (cs rest : List Char) : List Char := cs.take (cs.length - rest.length)

/-- A section for numbers with the text it was read from. -/
structure NumberSection where
  source : String
  before : Affix
  core : Core
  after : Affix
  deriving DecidableEq

namespace NumberSection

def isLiteral (s : NumberSection) : Bool := s.core.isEmpty

/-- Whether a mark stands in one of the two affixes. -/
def hasMark (m : ScaleMark) (s : NumberSection) : Bool :=
  (s.before ++ s.after).any (· == .mark m)

def read (cs : List Char) : NumberSection × List Char :=
  let (before, rest) := Affix.readBeforeCore cs
  let (core, rest) := Core.read rest
  let (after, rest) := Affix.readAfterCore rest
  (⟨String.ofList (consumed cs rest), before, core, after⟩, rest)

/-- A further section is introduced by a semicolon. -/
def readNext? : List Char → Option NumberSection × List Char
  | ';' :: cs => let (s, rest) := read cs; (some s, rest)
  | cs => (none, cs)

end NumberSection

/-- The place of the text in a template. -/
inductive Placeholder
  | text
  deriving DecidableEq

abbrev Template := List (Segment Placeholder)

namespace Template

def render (template : Template) (text : String) : String :=
  Segment.render (fun _ => text) template

def read (cs : List Char) : Template × List Char :=
  Segment.read (· == ';') (fun c => if c = '@' then some Placeholder.text else none) cs

end Template

end DecimalPattern
