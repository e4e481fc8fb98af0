/-! # Symbols

The seven symbols that differ between locales. A symbol map holds a value for each; the symbols of
a locale are such a map, and a locale entry gives some of them and leaves the others to a fallback.
-/

namespace DecimalPattern

inductive Symbol
  | thousandsSeparator
  | decimalSeparator
  | positiveSign
  | negativeSign
  | exponentSymbol
  | infinitySymbol
  | nanSymbol
  deriving DecidableEq

def Symbol.all : List Symbol :=
  [thousandsSeparator, decimalSeparator, positiveSign, negativeSign, exponentSymbol,
    infinitySymbol, nanSymbol]

/-- The name of a symbol in a locale document. -/
def Symbol.name : Symbol → String
  | thousandsSeparator => "thousands_separator"
  | decimalSeparator => "decimal_separator"
  | positiveSign => "positive_sign"
  | negativeSign => "negative_sign"
  | exponentSymbol => "exponent_symbol"
  | infinitySymbol => "infinity_symbol"
  | nanSymbol => "nan_symbol"

structure SymbolMap (α : Type) where
  thousandsSeparator : α
  decimalSeparator : α
  positiveSign : α
  negativeSign : α
  exponentSymbol : α
  infinitySymbol : α
  nanSymbol : α
  deriving DecidableEq

namespace SymbolMap

variable {α : Type}

def get (map : SymbolMap α) : Symbol → α
  | .thousandsSeparator => map.thousandsSeparator
  | .decimalSeparator => map.decimalSeparator
  | .positiveSign => map.positiveSign
  | .negativeSign => map.negativeSign
  | .exponentSymbol => map.exponentSymbol
  | .infinitySymbol => map.infinitySymbol
  | .nanSymbol => map.nanSymbol

def ofFn (f : Symbol → α) : SymbolMap α where
  thousandsSeparator := f .thousandsSeparator
  decimalSeparator := f .decimalSeparator
  positiveSign := f .positiveSign
  negativeSign := f .negativeSign
  exponentSymbol := f .exponentSymbol
  infinitySymbol := f .infinitySymbol
  nanSymbol := f .nanSymbol

@[simp] theorem get_ofFn (f : Symbol → α) (s : Symbol) : (ofFn f).get s = f s := by
  cases s <;> rfl

theorem ext_get {a b : SymbolMap α} (h : ∀ s, a.get s = b.get s) : a = b := by
  cases a; cases b
  simp only [SymbolMap.mk.injEq]
  exact ⟨h .thousandsSeparator, h .decimalSeparator, h .positiveSign, h .negativeSign,
    h .exponentSymbol, h .infinitySymbol, h .nanSymbol⟩

end SymbolMap

abbrev Symbols := SymbolMap String

/-- The symbols that a locale gives. -/
abbrev LocaleEntry := SymbolMap (Option String)

namespace Symbols

/-- The symbols of English, which every locale falls back to. -/
def english : Symbols where
  thousandsSeparator := ","
  decimalSeparator := "."
  positiveSign := "+"
  negativeSign := "-"
  exponentSymbol := "E"
  infinitySymbol := "∞"
  nanSymbol := "☹"

/-- The entry that gives every symbol. -/
def toEntry (symbols : Symbols) : LocaleEntry := .ofFn fun s => some (symbols.get s)

end Symbols

namespace LocaleEntry

def empty : LocaleEntry := .ofFn fun _ => none

/-- A symbol that is absent or empty is taken from the fallback. -/
def resolve (entry : LocaleEntry) (fallback : Symbols) : Symbols :=
  .ofFn fun s =>
    match entry.get s with
    | some text => if text.isEmpty then fallback.get s else text
    | none => fallback.get s

/-- The first symbol that is given as the empty text. -/
def emptySymbol? (entry : LocaleEntry) : Option Symbol :=
  Symbol.all.find? fun s => entry.get s == some ""

end LocaleEntry

end DecimalPattern
