/-!
# Reading floats

The accepted forms are an optional sign and then `inf`, `infinity` or `nan` in any case, or digits
with at most one point among them, at least one digit, and an optional exponent with digits of its
own.
-/

namespace FormulaEditor.Decimal

/-- The value of a run of decimal digits. -/
def digitsValue (cs : List Char) : Nat :=
  cs.foldl (fun n c => 10 * n + (c.toNat - '0'.toNat)) 0

/-- An optional sign: whether it is a minus, and what follows. -/
def takeSign : List Char → Bool × List Char
  | '-' :: cs => (true, cs)
  | '+' :: cs => (false, cs)
  | cs => (false, cs)

/-- The exponent of a numeral, which takes the rest of the text. -/
def readExponent? : List Char → Option Int
  | [] => some 0
  | c :: cs =>
    let (negative, digits) := takeSign cs
    if (c = 'e' || c = 'E') && !digits.isEmpty && digits.all Char.isDigit then
      some (if negative then -(digitsValue digits : Int) else digitsValue digits)
    else none

/-- The nearest float to `digits · 10 ^ exponent`. Beyond four hundred orders of magnitude the
outcome is known without the power. -/
def nearest (digits : Nat) (exponent : Int) : Float :=
  let magnitude := ((Nat.toDigits 10 digits).length : Int) + exponent
  if digits = 0 || magnitude < -400 then 0
  else if magnitude > 400 then 1 / 0
  else if exponent < 0 then Float.ofScientific digits true (-exponent).toNat
  else Float.ofScientific digits false exponent.toNat

/-- The digits behind a point that count: all but the zeros at the end. -/
def significant (fraction : List Char) : List Char :=
  (fraction.reverse.dropWhile (· == '0')).reverse

/-- An unsigned numeral. -/
def readMagnitude? (cs : List Char) : Option Float :=
  let whole := cs.takeWhile Char.isDigit
  let rest := cs.dropWhile Char.isDigit
  let fraction := match rest with
    | '.' :: ds => ds.takeWhile Char.isDigit
    | _ => []
  let rest := match rest with
    | '.' :: ds => ds.dropWhile Char.isDigit
    | _ => rest
  if whole.isEmpty && fraction.isEmpty then none
  else
    let places := significant fraction
    (readExponent? rest).map fun e =>
      nearest (digitsValue (whole ++ places)) (e - places.length)

/-- The float a text names, if it names one. -/
def read? (s : String) : Option Float :=
  let (negative, cs) := takeSign s.toList
  let word := String.ofList (cs.map Char.toLower)
  let magnitude :=
    if word == "inf" || word == "infinity" then some (1 / 0)
    else if word == "nan" then some (0 / 0)
    else readMagnitude? cs
  magnitude.map fun x => if negative then -x else x

end FormulaEditor.Decimal
