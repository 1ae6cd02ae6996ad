/-!
# Strings in JSON
-/

namespace FormulaEditor.Text

/-- The number of a control character in two hexadecimal digits. -/
def hexPair (c : Char) : List Char :=
  let digits := Nat.toDigits 16 c.toNat
  List.replicate (2 - digits.length) '0' ++ digits

/-- A character inside a JSON string. -/
def jsonChar (c : Char) : List Char :=
  if c = '"' || c = '\\' then ['\\', c]
  else if c = '\n' then ['\\', 'n']
  else if c = '\r' then ['\\', 'r']
  else if c = '\t' then ['\\', 't']
  else if c.toNat = 8 then ['\\', 'b']
  else if c.toNat = 12 then ['\\', 'f']
  else if c.toNat < 32 then ['\\', 'u', '0', '0'] ++ hexPair c
  else [c]

/-- A text as a JSON string. -/
def jsonString (s : String) : String :=
  String.ofList (['"'] ++ s.toList.flatMap jsonChar ++ ['"'])

end FormulaEditor.Text
