/-!
# Sets of characters as code point ranges
-/

namespace FormulaEditor.Unicode

/-- A set of characters: inclusive ranges of code points in ascending order. -/
abbrev CodeRanges := List (Nat × Nat)

/-- Whether a character lies in one of the ranges. -/
def CodeRanges.contains (ranges : CodeRanges) (c : Char) : Bool :=
  ranges.any fun r => r.1 ≤ c.toNat && c.toNat ≤ r.2

end FormulaEditor.Unicode
