/-!
# The shortest decimal that reads back

A positive double is `m · 2 ^ q`. The reals that round to it form an interval around it, ends
included exactly when `m` is even. The digits chosen for it are the fewest that name a number of
that interval: for one digit, two digits and so on, the two points of the decimal grid around the
value are tried, the nearer one first wins where both lie inside, and the upper one where neither is
nearer.
-/

namespace FormulaEditor

/-- The number `digits · 10 ^ exponent`. -/
structure Decimal where
  digits : Nat
  exponent : Int
deriving DecidableEq, Repr

namespace Decimal

/-- A positive binary number `mantissa · 2 ^ exponent`. -/
structure Binary where
  mantissa : Nat
  exponent : Int
deriving DecidableEq, Repr

/-- A positive value with the ends of the interval that rounds to it, all over one denominator. -/
structure Interval where
  value : Nat
  low : Nat
  high : Nat
  denominator : Nat
  closed : Bool

/-- The mantissa of the normal doubles that are powers of two, the least one with fifty-three
bits. -/
def leastNormal : Nat := 0x10000000000000

/-- The rounding interval of a double: half a step to either side, and a quarter step down from a
power of two, below which the doubles lie twice as dense. -/
def Binary.interval (b : Binary) : Interval :=
  let scale := Nat.pow 2 (b.exponent - 2).toNat
  let below := if b.mantissa = leastNormal then 1 else 2
  { value := 4 * b.mantissa * scale
    low := (4 * b.mantissa - below) * scale
    high := (4 * b.mantissa + 2) * scale
    denominator := Nat.pow 2 (2 - b.exponent).toNat
    closed := b.mantissa % 2 = 0 }

/-- Whether `numerator / denominator` lies in the interval. -/
def Interval.admits (i : Interval) (numerator denominator : Nat) : Bool :=
  if i.closed then
    i.low * denominator ≤ numerator * i.denominator &&
      numerator * i.denominator ≤ i.high * denominator
  else
    i.low * denominator < numerator * i.denominator &&
      numerator * i.denominator < i.high * denominator

/-- The point of the grid `10 ^ exponent` that stands for the value, if one lies in its interval. -/
def Interval.onGrid? (i : Interval) (exponent : Int) : Option Decimal :=
  let up := Nat.pow 10 exponent.toNat
  let down := Nat.pow 10 (-exponent).toNat
  let floor := i.value * down / (i.denominator * up)
  let rest := i.value * down % (i.denominator * up)
  let lower := i.admits (floor * up) down
  let upper := i.admits ((floor + 1) * up) down
  let upperNearer := i.denominator * up ≤ 2 * rest
  if upper && (upperNearer || !lower) then some ⟨floor + 1, exponent⟩
  else if lower then some ⟨floor, exponent⟩
  else none

/-- The first grid with a point in the interval, from `exponent` on through `fuel` finer ones.
Doubles need no more than seventeen digits, so the search ends. -/
def Interval.search (i : Interval) : Nat → Int → Decimal
  | 0, exponent => ⟨0, exponent⟩
  | fuel + 1, exponent => (i.onGrid? exponent).getD (i.search fuel (exponent - 1))

/-- The largest `k` with `10 ^ k` at most `numerator / denominator`. -/
def leadingExponent (numerator denominator : Nat) : Int :=
  if denominator ≤ numerator then
    ((Nat.toDigits 10 (numerator / denominator)).length : Int) - 1
  else
    -((Nat.toDigits 10 ((denominator - 1) / numerator)).length : Int)

/-- The shortest decimal for a positive double. The first grid tried is that of the power of ten
above the value, so a value that rounds up to a power of ten is that power and not ten of the
next. -/
def Binary.shortest (b : Binary) : Decimal :=
  let i := b.interval
  i.search 19 (leadingExponent i.value i.denominator + 1)

end Decimal

end FormulaEditor
