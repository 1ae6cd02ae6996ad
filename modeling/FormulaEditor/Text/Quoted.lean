import FormulaEditor.Unicode.Class

/-!
# Quoted text

Characters and strings between quotes, as messages and outlines show them: the quote in use, the
backslash and the common controls are written with a backslash, what cannot be seen as `\u{…}` with
its code point in hexadecimal, and everything else as it is.
-/

namespace FormulaEditor.Text

/-- A character by its code point, in lower-case hexadecimal without leading zeros. -/
def codeEscape (c : Char) : List Char :=
  ['\\', 'u', '\x7b'] ++ Nat.toDigits 16 c.toNat ++ ['\x7d']

/-- A character inside text that stands between two `quote` marks. -/
def escape (quote : Char) (c : Char) : List Char :=
  if c = '\x00' then ['\\', '0']
  else if c = '\t' then ['\\', 't']
  else if c = '\r' then ['\\', 'r']
  else if c = '\n' then ['\\', 'n']
  else if c = '\\' || c = quote then ['\\', c]
  else if Unicode.isPrintable c then [c]
  else codeEscape c

/-- A character between single quotes. -/
def quoteChar (c : Char) : String :=
  String.ofList (['\''] ++ escape '\'' c ++ ['\''])

/-- A text between double quotes. -/
def quoteString (s : String) : String :=
  String.ofList (['"'] ++ s.toList.flatMap (escape '"') ++ ['"'])

end FormulaEditor.Text
