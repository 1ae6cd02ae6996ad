/-!
# Misuse of a formula

Operations on formulas refuse what no caller should ask for. An editing session never does.
-/

namespace FormulaEditor

/-- Why an operation was refused. -/
inductive Misuse
  /-- A position beyond the end of its list. -/
  | positionOutOfRange
  /-- A caret in a list that is not part of the formula. -/
  | caretDetached
  /-- An element that has to be part of the formula is not. -/
  | elementDetached
  /-- An element to be inserted is already part of a list. -/
  | elementAttached
  /-- Scripts were asked of an element that is something else. -/
  | notScripts
  /-- Deletion upwards or downwards. -/
  | notHorizontal
  /-- An element was to take in a selection that holds it. -/
  | selectionHoldsElement
  /-- A handle to something that is not part of the formula any more. -/
  | staleHandle
  /-- A paren with a character that is none. -/
  | notParen
  /-- A slider for a value without bounds. -/
  | unboundedSlider
deriving DecidableEq, Repr, Inhabited

end FormulaEditor
