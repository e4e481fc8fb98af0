import DecimalPattern.Pattern.Core

/-! # Structural rules of a core

Five rules, in the order in which they are checked. A core that breaks one is reported with the
part of it that the rule is about.
-/

namespace DecimalPattern

inductive CoreRule
  | integerOrder
  | fractionOrder
  | exponentWithoutGrouping
  | significanceWithoutPoint
  | significanceWithoutZero
  deriving DecidableEq

namespace CoreRule

def all : List CoreRule :=
  [integerOrder, fractionOrder, exponentWithoutGrouping, significanceWithoutPoint,
    significanceWithoutZero]

/-- Whether a token of the second kind stands somewhere after one of the first. -/
def follows (first second : Token → Bool) (tokens : List Token) : Bool :=
  (tokens.dropWhile fun t => !first t).any second

def brokenBy (parts : Core.Parts) : CoreRule → Bool
  | integerOrder => follows Token.isRequired Token.isOptional parts.integer
  | fractionOrder => follows Token.isOptional Token.isRequired parts.fraction
  | exponentWithoutGrouping => parts.exponent?.isSome && parts.hasGrouping
  | significanceWithoutPoint => parts.hasSignificance && parts.fraction?.isSome
  | significanceWithoutZero =>
    parts.hasSignificance && parts.integer.any (· == .digit (.required '0'))

/-- The part of the core that the rule is about. -/
def fragment (core : Core) : CoreRule → Core
  | integerOrder => core.parts.integer
  | fractionOrder => core.parts.fraction
  | _ => core

def message : CoreRule → String
  | integerOrder => "Nonsensical integer pattern"
  | fractionOrder => "Nonsensical fraction pattern"
  | exponentWithoutGrouping => "Exponential patterns must not contain grouping"
  | significanceWithoutPoint => "Significant digit patterns must not contain a decimal point"
  | significanceWithoutZero => "Significant digit patterns must not contain \"0\""

/-- The first rule that a core breaks. -/
def firstBroken? (core : Core) : Option CoreRule := all.find? (brokenBy core.parts)

end CoreRule

end DecimalPattern
