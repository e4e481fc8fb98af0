import DecimalPattern.Layout.Basic

/-! # From patterns to layouts

The core of the positive section gives the bounds. A negative section gives only its affixes, and
a literal one not even these, but its core has to keep the structural rules too.
-/

namespace DecimalPattern

namespace Layout

def digitCount (tokens : List Token) : Nat := tokens.countP Token.isDigit

def requiredCount (tokens : List Token) : Nat := tokens.countP Token.isRequired

/-- The digits after the last separator, and between the last two if there are two. -/
def groupSizes (integer : List Token) : Nat × Nat :=
  match ((integer.splitOnP Token.isGrouping).map digitCount).reverse with
  | primary :: secondary :: _ :: _ => (primary, secondary)
  | [primary, _] => (primary, primary)
  | _ => (0, 0)

/-- The first run of significant digits is the lower bound; digits after it raise the upper. -/
def significantBounds (integer : List Token) : Nat × Nat :=
  let run := integer.dropWhile fun t => !t.isSignificant
  if run.isEmpty then (1, 1)
  else
    let least := (run.takeWhile Token.isSignificant).length
    (least, least + digitCount (run.dropWhile Token.isSignificant))

/-- A percent sign in a section that is used wins over a per mille sign. -/
def scaleOf (used : List NumberSection) : Nat :=
  if used.any (·.hasMark .percent) then 100
  else if used.any (·.hasMark .permille) then 1000
  else 1

def affixesOf (s : NumberSection) : Affixes := ⟨s.before.render, s.after.render⟩

/-- Without a negative section a minus goes before the positive affixes. -/
def negativeAffixes (positive : NumberSection) : Option NumberSection → Affixes
  | some negative => affixesOf negative
  | none => ⟨"-" ++ positive.before.render, positive.after.render⟩

/-- The layout of sections that keep the structural rules; the negative section is not literal. -/
def ofSections (source : String) (positive : NumberSection) (negative : Option NumberSection) :
    Layout :=
  let parts := positive.core.parts
  let integer := parts.integer
  let fraction := parts.fraction
  let significance := parts.hasSignificance
  let exponential := parts.exponent?.isSome
  let (primary, secondary) := groupSizes integer
  let (least, most) := if significance then significantBounds integer else (1, 1)
  -- With an exponent the significant digits are one before the point and the others after it.
  let scientific := exponential && significance
  { source
    significance
    exponential
    grouping := 0 < primary || 0 < secondary
    exponentPlus := (parts.exponent?.map Exponent.plus).getD false
    literal := positive.isLiteral
    integerMin :=
      if scientific then 1 else if integer.isEmpty then 0 else max 1 (requiredCount integer)
    integerMax :=
      if scientific then some 1
      else if exponential || significance then some (digitCount integer)
      else none
    fractionMin := if scientific then least else requiredCount fraction
    fractionMax := if scientific then most else digitCount fraction
    significantMin := least
    significantMax := if significance then some most else none
    exponentMin := (parts.exponent?.map Exponent.minDigits).getD 0
    primaryGroup := primary
    secondaryGroup := secondary
    positive := affixesOf positive
    negative := negativeAffixes positive negative
    pad := '0'
    scale := scaleOf (positive :: negative.toList) }

end Layout

/-- The error of the first rule that the core of a section breaks. -/
def NumberSection.check (s : NumberSection) : Except PatternError Unit :=
  match CoreRule.firstBroken? s.core with
  | some rule => .error (.brokenRule rule (rule.fragment s.core).render)
  | none => .ok ()

/-- Checks the cores, the positive one first. -/
def Layout.compile (source : String) (positive : NumberSection)
    (negative : Option NumberSection) : Except PatternError Layout := do
  let negative := negative.filter fun s => !s.isLiteral
  positive.check
  if let some s := negative then s.check
  return .ofSections source positive negative

namespace NumberFormat

/-- The layout for zero is that of its section alone. -/
def ofPattern (pattern : Pattern) : Except PatternError NumberFormat := do
  let layout ← Layout.compile pattern.source pattern.positive pattern.negative
  let zero ← pattern.zero.mapM fun s => Layout.compile s.source s none
  return ⟨layout, zero, pattern.text⟩

def compile (pattern : String) : Except PatternError NumberFormat := do
  ofPattern (← Pattern.parse pattern)

end NumberFormat

end DecimalPattern
