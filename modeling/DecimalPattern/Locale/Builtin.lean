import DecimalPattern.Locale.Table

/-! # The builtin locales

Symbols that a locale does not give are those of English.
-/

namespace DecimalPattern

namespace LocaleEntry

def separators (thousands decimal : String) : LocaleEntry :=
  { empty with thousandsSeparator := some thousands, decimalSeparator := some decimal }

end LocaleEntry

namespace LocaleTable

open LocaleEntry in
def builtinEntries : List (String × LocaleEntry) :=
  [("en", Symbols.english.toEntry),
    ("is", separators "." ","),
    ("de", separators "." ","),
    ("de-ch", separators "’" "."),
    ("fr", separators "\u202F" ","),
    ("es", separators "." ","),
    ("it", separators "." ","),
    ("pt", separators "." ","),
    ("nl", separators "." ","),
    ("sv", { separators "\u00A0" "," with
      negativeSign := some "\u2212", exponentSymbol := some "×10^" }),
    ("nb", { separators "\u00A0" "," with negativeSign := some "\u2212" }),
    ("ru", { separators "\u00A0" "," with nanSymbol := some "не число" }),
    ("ja", { LocaleEntry.empty with nanSymbol := some "NaN" }),
    ("zh", { LocaleEntry.empty with nanSymbol := some "NaN" })]

def builtin : LocaleTable := .ofList builtinEntries

end LocaleTable

end DecimalPattern
