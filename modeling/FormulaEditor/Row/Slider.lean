import FormulaEditor.Misuse

/-!
# Slider ranges

A slider reaches from a tenth below zero up to the next power of ten above its value, mirrored for
negative values, and at least ten to either side.
-/

namespace FormulaEditor.Slider

/-- A power by repeated squaring, from the lowest bit of the exponent up. -/
def squarings (base result : Float) : Nat → Nat → Float
  | 0, _ => result
  | fuel + 1, exponent =>
    let result := if exponent % 2 = 1 then result * base else result
    if exponent / 2 = 0 then result else squarings (base * base) result fuel (exponent / 2)

/-- An integral power of a float; a negative one is the inverse of the positive. -/
def power (base : Float) (exponent : Int) : Float :=
  let magnitude := squarings base 1 64 exponent.natAbs
  if exponent < 0 then 1 / magnitude else magnitude

/-- How many digits a value has before its point, as a power of ten: none for what is no number. -/
def decimalExponent (value : Float) : Int :=
  (value.abs.log10.floor).toInt32.toInt

/-- The range of a slider that starts at a value. An infinite value has none. -/
def range (value : Float) : Except Misuse (Float × Float) :=
  if value == 0 then .ok (-10, 10)
  else
    let exponent := decimalExponent value
    if exponent = Int32.maxValue.toInt then .error .unboundedSlider
    else
      let reach := power 10 (1 + exponent)
      let tenth := -reach.abs / 10
      let (lower, upper) := if value < 0 then (-reach, -tenth) else (tenth, reach)
      .ok (if lower < -10 then lower else -10, if 10 < upper then upper else 10)

end FormulaEditor.Slider
