/-!
# Integer numerals written as floats

A bare integer in generated text gets a fractional part: `3*x` becomes `3.0*x`. Digits that belong
to an identifier (`x_1`, `sum0`) or to a decimal number (`2.5`) stay as they are.
-/

namespace FormulaEditor.Text

/-- Whether digits right after this character belong to a name or number begun before them. -/
def gluesDigits (c : Char) : Bool :=
  c == '.' || c == '_' || c.isAlphanum

/-- Where a reader of numerals stands. -/
inductive NumeralState
  /-- Outside digits; `glued` when digits that follow belong to what came before. -/
  | outside (glued : Bool)
  /-- Inside a run of digits; `bare` when nothing before the run claims it. -/
  | inside (bare : Bool)
deriving DecidableEq, Repr

/-- The state after a digit. -/
def NumeralState.afterDigit : NumeralState → NumeralState
  | .outside glued => .inside (!glued)
  | .inside bare => .inside bare

/-- Writes `.0` after each bare run of digits that no point follows. -/
def promoteFrom : NumeralState → List Char → List Char
  | .inside true, [] => ['.', '0']
  | _, [] => []
  | state, c :: cs =>
    if c.isDigit then c :: promoteFrom state.afterDigit cs
    else if state = .inside true && c != '.' then
      '.' :: '0' :: c :: promoteFrom (.outside (gluesDigits c)) cs
    else c :: promoteFrom (.outside (gluesDigits c)) cs

/-- Gives every bare integer of a text an explicit fractional part. -/
def promoteIntegers (s : String) : String :=
  String.ofList (promoteFrom (.outside false) s.toList)

/-- Whether a text is one piece of a number: a decimal point, or digits alone. -/
def isNumberPart (s : String) : Bool :=
  s == "." || (!s.isEmpty && s.toList.all Char.isDigit)

end FormulaEditor.Text
