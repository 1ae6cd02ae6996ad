import FormulaEditor.Formula.Basic

/-!
# Places and carets

A place is a gap between two elements of a list, or before the first or after the last one. A caret
stands at a place and may hold an anchor, the other end of a selection.
-/

namespace FormulaEditor

/-- A gap in a list: that many elements lie before it. -/
structure Place where
  list : ListId
  pos : Nat
deriving DecidableEq, Repr, Inhabited

namespace Formula

/-- The place before all elements of a list. -/
def startOf (l : ListId) : Place :=
  ⟨l, 0⟩

/-- The place after all elements of a list. -/
def endOf (f : Formula) (l : ListId) : Place :=
  ⟨l, f.length l⟩

/-- The place at which a caret enters a list that moves in a direction. -/
def entering (f : Formula) (d : Direction) (l : ListId) : Place :=
  if d.isBackward then f.endOf l else startOf l

end Formula

/-- Where typing goes, and what is selected. -/
structure Caret where
  place : Place
  /-- The end of the selection that stays when the caret moves. -/
  anchor : Option Place
  /-- Whether a selection is under way. -/
  selecting : Bool
deriving DecidableEq, Repr, Inhabited

namespace Caret

/-- A caret without a selection. -/
def ofPlace (place : Place) : Caret :=
  ⟨place, none, false⟩

/-- The caret with its selection given up. -/
def cancel (c : Caret) : Caret :=
  { c with anchor := none, selecting := false }

/-- The caret at another place, its anchor untouched. -/
def moveTo (c : Caret) (place : Place) : Caret :=
  { c with place }

/-- The caret with a selection begun where it stands, unless one is under way. -/
def beginSelection (c : Caret) : Caret :=
  if c.selecting then c else { c with anchor := some c.place, selecting := true }

/-- The caret after the whole formula is selected. -/
def selectAll (f : Formula) : Caret :=
  ⟨f.endOf f.root, some (Formula.startOf f.root), true⟩

end Caret

end FormulaEditor
