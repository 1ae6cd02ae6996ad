import FormulaEditor.Caret.Basic
import FormulaEditor.Formula.Plant
import FormulaEditor.Formula.Writer

/-!
# Selections

The two ends of a selection may lie in different lists. What is selected is a run of elements of the
innermost list around both; an end further inside stands for the whole element around it.
-/

namespace FormulaEditor

/-- A run of elements of one list. -/
structure Selection where
  list : ListId
  start : Nat
  stop : Nat
deriving DecidableEq, Repr, Inhabited

namespace Formula

/-- A place, the place of the element around it, and so on outwards, through at most `depth`
lists. -/
def enclosingWithin (f : Formula) : Nat → Place → Except Misuse (List Place)
  | 0, _ => .ok []
  | depth + 1, p =>
    match f.owner p.list with
    | none => .ok [p]
    | some e =>
      match f.parent e with
      | none => .error .elementDetached
      | some outer => do
        let places ← f.enclosingWithin depth ⟨outer, f.position e⟩
        .ok (p :: places)

/-- A place and the places of all elements around it, outwards. -/
def enclosing (f : Formula) (p : Place) : Except Misuse (List Place) :=
  f.enclosingWithin f.listSlots.size p

/-- A list and all lists around it, outwards. -/
def ancestors (f : Formula) (l : ListId) : Except Misuse (List ListId) := do
  let places ← f.enclosing (startOf l)
  .ok (places.map Place.list)

/-- The elements of a run, which has to lie inside the list. -/
def elementRange (f : Formula) (l : ListId) (start stop : Nat) : Except Misuse (List ElementId) :=
  if start ≤ stop && stop ≤ f.length l then
    .ok ((f.elements l).drop start |>.take (stop - start))
  else .error .positionOutOfRange

end Formula

/-- Where two chains of places first meet in a list. Each side comes with its position there, and
with whether it lies deeper, inside the element at that position. -/
def meet? (deeper : Bool) (others : List Place) :
    List Place → Option (ListId × (Nat × Bool) × (Nat × Bool))
  | [] => none
  | p :: places =>
    match others.findIdx? fun q => q.list = p.list, others.find? fun q => q.list = p.list with
    | some j, some q => some (p.list, (p.pos, deeper), (q.pos, j != 0))
    | _, _ => meet? true others places

namespace Caret

/-- The run between the two ends of a caret, if it has an anchor in reach. An end inside an element
takes the element in. -/
def selection? (c : Caret) (f : Formula) : Except Misuse (Option Selection) :=
  match c.anchor with
  | none => .ok none
  | some anchor => do
    let places ← f.enclosing c.place
    let others ← f.enclosing anchor
    match meet? false others places with
    | none => .ok none
    | some (list, (here, hereDeeper), (there, thereDeeper)) =>
      let here := if hereDeeper && there ≤ here then here + 1 else here
      let there := if thereDeeper && here ≤ there then there + 1 else there
      .ok (some ⟨list, min here there, max here there⟩)

/-- The run that is selected; none unless a selection is under way. -/
def selected? (c : Caret) (f : Formula) : Except Misuse (Option Selection) :=
  if c.selecting then c.selection? f else .ok none

/-- The selected elements. -/
def selectedElements (c : Caret) (f : Formula) : Except Misuse (List ElementId) := do
  match ← c.selected? f with
  | some s => f.elementRange s.list s.start s.stop
  | none => .ok []

/-- The selected nodes. -/
def selectedNodes (c : Caret) (f : Formula) : Except Misuse (List Node) := do
  let elements ← c.selectedElements f
  .ok (elements.map f.snapshot)

/-- The selection as formula text; nothing without one. -/
def copy (c : Caret) (f : Formula) : Except Misuse String := do
  let elements ← c.selectedElements f
  .ok (f.elementsTex elements)

end Caret

end FormulaEditor
