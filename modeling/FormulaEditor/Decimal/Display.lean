import FormulaEditor.Decimal.Shortest

/-!
# Floats as text

A float is written in full, without an exponent: the shortest digits that read back, zeros up to or
after the point as its size asks, and no fractional part for a whole number.
-/

namespace FormulaEditor.Decimal

/-- The digits of a decimal around its point. -/
def positional (d : Decimal) : List Char :=
  let digits := Nat.toDigits 10 d.digits
  if 0 ≤ d.exponent then digits ++ List.replicate d.exponent.toNat '0'
  else
    let places := (-d.exponent).toNat
    let padded := List.replicate (places + 1 - digits.length) '0' ++ digits
    padded.take (padded.length - places) ++ '.' :: padded.drop (padded.length - places)

/-- The sixty-four bits of a double, read by field. -/
structure Fields where
  negative : Bool
  exponent : Nat
  fraction : Nat

/-- The exponent field of infinities and of what is no number. -/
def specialExponent : Nat := 0x7ff

/-- The fields of a float. -/
def fields (x : Float) : Fields :=
  let bits := x.toBits.toNat
  ⟨bits >>> 63 = 1, (bits >>> 52) % (specialExponent + 1), bits % leastNormal⟩

/-- The absolute value of a finite float other than zero. -/
def Fields.magnitude (f : Fields) : Binary :=
  if f.exponent = 0 then ⟨f.fraction, -1074⟩
  else ⟨leastNormal + f.fraction, (f.exponent : Int) - 1075⟩

/-- A float as text. -/
def display (x : Float) : String :=
  let f := fields x
  let sign := if f.negative then ['-'] else []
  if f.exponent = specialExponent then
    if f.fraction = 0 then String.ofList (sign ++ ['i', 'n', 'f']) else "NaN"
  else if f.exponent = 0 && f.fraction = 0 then String.ofList (sign ++ ['0'])
  else String.ofList (sign ++ f.magnitude.shortest.positional)

end FormulaEditor.Decimal
