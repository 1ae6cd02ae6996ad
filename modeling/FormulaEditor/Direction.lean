/-!
# Directions

Where a caret moves or deletes. Up and left lead towards the beginning of a formula, down and right
towards its end.
-/

namespace FormulaEditor

/-- A direction of movement or deletion. -/
inductive Direction
  | up
  | down
  | left
  | right
deriving DecidableEq, Repr, Inhabited

namespace Direction

/-- Whether the direction leads towards the beginning. -/
def isBackward : Direction → Bool
  | up | left => true
  | down | right => false

/-- One step in the direction, as a difference of positions. -/
def displacement (d : Direction) : Int :=
  if d.isBackward then -1 else 1

/-- Up and down. -/
def isVertical : Direction → Bool
  | up | down => true
  | left | right => false

/-- Left and right. -/
def isHorizontal (d : Direction) : Bool :=
  !d.isVertical

/-- The direction that points the other way. -/
def opposite : Direction → Direction
  | up => down
  | down => up
  | left => right
  | right => left

end Direction

end FormulaEditor
