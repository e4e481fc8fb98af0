import DecimalPattern.Format.Basic
import Mathlib.Data.Int.Notation
import Mathlib.Data.List.Basic

/-! # Pieces of output

A number is written as a list of pieces, each a text or the name of a symbol, which is formed
without the symbols of a locale. Rendering the pieces with the symbols gives the text that the
strategies write with them.
-/

namespace DecimalPattern

inductive Piece
  | text (s : String)
  | symbol (s : Symbol)
  deriving DecidableEq

namespace Piece

def ofDigits (digits : List Char) : Piece := text (String.ofList digits)

def render (symbols : Symbols) : Piece → String
  | text s => s
  | symbol s => symbols.get s

def renderAll (symbols : Symbols) (pieces : List Piece) : String :=
  String.join (pieces.map (render symbols))

end Piece

/-- The groups with the separator between any two. -/
def Grouping.pieces? (primary secondary : ℕ) (digits : List Char) : Option (List Piece) :=
  (groups? primary secondary digits).map fun groups =>
    (groups.map Piece.ofDigits).intersperse (.symbol .thousandsSeparator)

def fractionPieces (fraction : List Char) : List Piece :=
  if fraction.isEmpty then [] else [.symbol .decimalSeparator, .ofDigits fraction]

/-- A mantissa and the exponent of ten that goes with it. -/
structure Scientific where
  mantissa : Numeral
  exponent : ℤ
  deriving DecidableEq

namespace Layout

def scientific? (layout : Layout) (value : Binary64) : Option Scientific := do
  let value := value.abs
  let (first, step) ← layout.firstExponent? value.leadingExponent
  let mantissa ← layout.mantissa? value first
  if layout.overflows mantissa then
    let next ← word? (first + step)
    return ⟨layout.trimInteger (← layout.mantissa? value next), next⟩
  else return ⟨layout.trimInteger mantissa, first⟩

/-- The sign of an exponent and its padded digits. -/
def exponentPieces (layout : Layout) (exponent : ℤ) : List Piece :=
  let sign :=
    if exponent < 0 then [Piece.symbol .negativeSign]
    else if layout.exponentPlus then [Piece.symbol .positiveSign]
    else []
  sign ++ [.ofDigits ((digits exponent.natAbs).leftpad layout.exponentMin layout.pad)]

def scientificPieces (layout : Layout) (s : Scientific) : List Piece :=
  .ofDigits s.mantissa.integer :: fractionPieces s.mantissa.fraction ++
    .symbol .exponentSymbol :: layout.exponentPieces s.exponent

def integerPieces? (layout : Layout) (integer : List Char) : Option (List Piece) :=
  if layout.grouping then Grouping.pieces? layout.primaryGroup layout.secondaryGroup integer
  else some [.ofDigits integer]

def positionalPieces? (layout : Layout) (numeral : Numeral) : Option (List Piece) :=
  (layout.integerPieces? numeral.integer).map (· ++ fractionPieces numeral.fraction)

/-- What stands between the affixes for a scaled value. -/
def bodyPieces? (layout : Layout) (scaled : Binary64) : Option (List Piece) :=
  match Strategy.select layout scaled with
  | .special => some [.symbol (if scaled = .nan then .nanSymbol else .infinitySymbol)]
  | .literal => some []
  | .exponential => (layout.scientific? scaled).map layout.scientificPieces
  | .significant =>
    (splitSignificant? scaled layout.significantMin layout.significantMax layout.pad).bind
      layout.positionalPieces?
  | .fixed => (layout.formatFixed? scaled).bind layout.positionalPieces?

/-- The body of a number between the affixes of its sign. -/
def enclose (layout : Layout) (value : Binary64) (body : List Piece) : List Piece :=
  .text (layout.affixes value).before :: body ++ [.text (layout.affixes value).after]

end Layout

def NumberFormat.pieces? (format : NumberFormat) (value : Binary64) : Option (List Piece) :=
  ((format.layoutFor value).bodyPieces? (value.scale (format.layoutFor value).scale)).map
    ((format.layoutFor value).enclose value)

/-! ## Texts of pieces -/

variable {F : NumberFormat} {layout : Layout}

namespace Piece

theorem renderAll_append (symbols : Symbols) (a b : List Piece) :
    renderAll symbols (a ++ b) = renderAll symbols a ++ renderAll symbols b := by
  simp [renderAll, String.join_append]

@[simp] theorem renderAll_cons (symbols : Symbols) (piece : Piece) (pieces : List Piece) :
    renderAll symbols (piece :: pieces) = piece.render symbols ++ renderAll symbols pieces := by
  simp [renderAll, String.join_cons]

@[simp] theorem renderAll_nil (symbols : Symbols) : renderAll symbols [] = "" := rfl

@[simp] theorem render_ofDigits (symbols : Symbols) (digits : List Char) :
    (ofDigits digits).render symbols = String.ofList digits := rfl

@[simp] theorem render_symbol (symbols : Symbols) (s : Symbol) :
    (symbol s).render symbols = symbols.get s := rfl

@[simp] theorem render_text (symbols : Symbols) (s : String) : (text s).render symbols = s := rfl

theorem renderAll_enclosed (symbols : Symbols) (before after : String) (body : List Piece) :
    renderAll symbols (.text before :: body ++ [.text after]) =
      before ++ renderAll symbols body ++ after := by
  rw [renderAll_append]
  simp

end Piece

theorem renderAll_intersperse (symbols : Symbols) (groups : List (List Char)) :
    Piece.renderAll symbols
        ((groups.map Piece.ofDigits).intersperse (.symbol .thousandsSeparator)) =
      symbols.thousandsSeparator.intercalate (groups.map String.ofList) := by
  induction groups with
  | nil => rfl
  | cons group groups ih =>
    cases groups with
    | nil => simp
    | cons next groups =>
      simp only [List.map_cons, List.intersperse_cons_cons, String.intercalate_cons_cons] at ih ⊢
      rw [← ih]
      simp [SymbolMap.get, String.append_assoc]

theorem renderAll_fractionPieces (symbols : Symbols) (fraction : List Char) :
    Piece.renderAll symbols (fractionPieces fraction) = if fraction.isEmpty then ""
      else symbols.get .decimalSeparator ++ String.ofList fraction := by
  unfold fractionPieces
  split_ifs <;> simp

theorem groupInteger?_eq_map (symbols : Symbols) (digits : List Char) (primary secondary : ℕ) :
    groupInteger? digits primary secondary symbols.thousandsSeparator =
      (Grouping.pieces? primary secondary digits).map (Piece.renderAll symbols) := by
  rw [groupInteger?, Grouping.pieces?, Option.map_map]
  congr 1
  funext groups
  exact (renderAll_intersperse symbols groups).symm

namespace Layout

/-- The sign before the digits of an exponent. -/
def exponentSign (layout : Layout) (symbols : Symbols) (e : ℤ) : String :=
  if e < 0 then symbols.get .negativeSign
  else if layout.exponentPlus then symbols.get .positiveSign
  else ""

theorem renderAll_exponentPieces (symbols : Symbols) (e : ℤ) :
    Piece.renderAll symbols (layout.exponentPieces e) = layout.exponentSign symbols e ++
      String.ofList ((digits e.natAbs).leftpad layout.exponentMin layout.pad) := by
  rw [exponentPieces, Piece.renderAll_append, exponentSign]
  split_ifs <;> simp

theorem formatExponential?_eq_map (symbols : Symbols) (value : Binary64) :
    layout.formatExponential? symbols value = (layout.scientific? value).map fun s =>
      ⟨s.mantissa, Piece.renderAll symbols (layout.exponentPieces s.exponent)⟩ := by
  simp only [renderAll_exponentPieces, formatExponential?, scientific?, exponentSign]
  rcases layout.firstExponent? value.abs.leadingExponent with _ | ⟨first, step⟩
  · rfl
  simp only [Option.bind_eq_bind, Option.bind_some, Option.pure_def]
  rcases layout.mantissa? value.abs first with _ | mantissa
  · rfl
  simp only [Option.bind_some]
  split
  · rcases word? (first + step) with _ | next
    · rfl
    simp only [Option.bind_some]
    rcases layout.mantissa? value.abs next with _ | mantissa <;> rfl
  · rfl

theorem group?_eq_map (symbols : Symbols) (digits : List Char) :
    layout.group? symbols digits =
      (layout.integerPieces? digits).map (Piece.renderAll symbols) := by
  rw [group?, integerPieces?]
  split_ifs
  · exact groupInteger?_eq_map symbols digits _ _
  · simp

theorem write_positional (symbols : Symbols) (numeral : Numeral) :
    ((layout.group? symbols numeral.integer).bind fun integer =>
        some (⟨integer, numeral.fraction, none⟩ : NumberText)).map (·.write symbols) =
      (layout.positionalPieces? numeral).map (Piece.renderAll symbols) := by
  rw [group?_eq_map, positionalPieces?]
  cases layout.integerPieces? numeral.integer with
  | none => rfl
  | some pieces =>
    simp [NumberText.write, Piece.renderAll_append, renderAll_fractionPieces, SymbolMap.get]

theorem write_scientific (symbols : Symbols) (s : Scientific) :
    (⟨String.ofList s.mantissa.integer, s.mantissa.fraction,
        some (Piece.renderAll symbols (layout.exponentPieces s.exponent))⟩ : NumberText).write
          symbols =
      Piece.renderAll symbols (layout.scientificPieces s) := by
  simp [NumberText.write, scientificPieces, Piece.renderAll_append, renderAll_fractionPieces,
    SymbolMap.get, String.append_assoc]

/-- Every strategy writes the text of its pieces. -/
theorem numberText?_eq_map (symbols : Symbols) (scaled : Binary64) :
    (layout.numberText? symbols scaled).map (·.write symbols) =
      (layout.bodyPieces? scaled).map (Piece.renderAll symbols) := by
  rw [numberText?, bodyPieces?]
  cases Strategy.select layout scaled with
  | special =>
    by_cases nan : scaled = .nan <;> simp [NumberText.write, SymbolMap.get, nan]
  | literal => simp [NumberText.write]
  | exponential =>
    dsimp only
    rw [formatExponential?_eq_map]
    cases layout.scientific? scaled with
    | none => rfl
    | some s => exact congrArg some (write_scientific symbols s)
  | significant =>
    dsimp only
    cases splitSignificant? scaled layout.significantMin layout.significantMax layout.pad with
    | none => rfl
    | some numeral => exact write_positional symbols numeral
  | fixed =>
    dsimp only
    cases layout.formatFixed? scaled with
    | none => rfl
    | some numeral => exact write_positional symbols numeral

theorem format?_eq_map (layout : Layout) (symbols : Symbols) (value : Binary64) :
    layout.format? symbols value =
      ((layout.numberText? symbols (value.scale layout.scale)).map (·.write symbols)).map fun body =>
        (layout.affixes value).before ++ body ++ (layout.affixes value).after := by
  rw [format?]
  cases layout.numberText? symbols (value.scale layout.scale) <;> rfl

end Layout

/-- A number is written with the text of its pieces. -/
theorem NumberFormat.format?_eq_map (F : NumberFormat) (symbols : Symbols) (v : Binary64) :
    F.format? symbols v = (F.pieces? v).map (Piece.renderAll symbols) := by
  rw [format?, Layout.format?_eq_map, Layout.numberText?_eq_map, pieces?, Option.map_map,
    Option.map_map]
  congr 1
  funext body
  exact (Piece.renderAll_enclosed symbols _ _ body).symm

end DecimalPattern
