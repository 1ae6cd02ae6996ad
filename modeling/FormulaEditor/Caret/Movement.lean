import FormulaEditor.Caret.Basic

/-!
# Moving a caret

Left and right lead past a leaf, into a composite element, from one of its lists to the next, and
out of it again. Up and down lead from one list of an element to the next and out of it.
-/

namespace FormulaEditor

namespace Formula

variable (f : Formula)

/-- The index of the element beside a place, if there is one. -/
def adjacentIndex? (p : Place) (d : Direction) : Option Nat :=
  if d = .left then if p.pos = 0 then none else some (p.pos - 1) else some p.pos

/-- The element beside a place and its index. -/
def adjacent? (p : Place) (d : Direction) : Option (Nat × ElementId) := do
  let i ← adjacentIndex? p d
  let e ← (f.elements p.list)[i]?
  some (i, e)

/-- The place after leaving the list of a place: in the next list of the same element, or beside the
element. There is none beyond the root. -/
def leave? (p : Place) (d : Direction) : Except Misuse (Option Place) :=
  match f.owner p.list with
  | none => .ok none
  | some e =>
    match (f.element e).sibling? d p.list with
    | some sibling => .ok (some (f.entering d sibling))
    | none =>
      match f.parent e with
      | none => .error .elementDetached
      | some outer =>
        .ok (some ⟨outer, if d.isBackward then f.position e else f.position e + 1⟩)

/-- The place one step on. -/
def step? (p : Place) (d : Direction) : Except Misuse (Option Place) :=
  if d.isVertical then f.leave? p d
  else match f.adjacent? p d with
    | none => f.leave? p d
    | some (_, e) =>
      match (f.element e).boundary? d with
      | some inner => .ok (some (f.entering d inner))
      | none => .ok (some ⟨p.list, if d.isBackward then p.pos - 1 else p.pos + 1⟩)

end Formula

namespace Caret

/-- Moves one step and says whether there was one to make. With `select` the selection grows or
shrinks; without, it is given up. -/
def move (c : Caret) (f : Formula) (d : Direction) (select : Bool) : Except Misuse (Caret × Bool) :=
  do
  let c := if select then c.beginSelection else c.cancel
  match ← f.step? c.place d with
  | some place => .ok (c.moveTo place, true)
  | none => .ok (c, false)

/-- What a pointer hits. -/
inductive Target
  | list (list : ListId)
  | element (element : ElementId)
deriving DecidableEq, Repr, Inhabited

/-- Puts the caret where a pointer hits: beside an element, or at an end of a list. Dragging
selects. -/
def point (c : Caret) (f : Formula) (target : Target) (side : Direction) (drag : Bool) : Caret :=
  let c := if drag then c.beginSelection else c.cancel
  match target with
  | .list l => c.moveTo (if side = .left then Formula.startOf l else f.endOf l)
  | .element e =>
    match f.parent e with
    | none => c
    | some l => c.moveTo ⟨l, if side = .right then f.position e + 1 else f.position e⟩

end Caret

end FormulaEditor
