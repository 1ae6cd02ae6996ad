/-!
# Settings

Options come from outside as named settings, each of some sort. Names that mean nothing are passed
over; a setting of the wrong sort spoils the whole.
-/

namespace FormulaEditor

/-- The value of a setting. -/
inductive Setting
  | text (value : String)
  | flag (value : Bool)
  | count (value : Int)
  /-- Anything that no option takes. -/
  | other
deriving DecidableEq, Repr

namespace Setting

/-- A text, and nothing else. -/
def text? : Setting → Option String
  | text value => some value
  | _ => none

/-- A flag, and nothing else. -/
def flag? : Setting → Option Bool
  | flag value => some value
  | _ => none

/-- A count that fits into 32 bits, and nothing else. -/
def count? : Setting → Option Nat
  | count value => if 0 ≤ value && value.toNat < UInt32.size then some value.toNat else none
  | _ => none

end Setting

end FormulaEditor
