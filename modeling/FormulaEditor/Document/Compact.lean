import FormulaEditor.Document.Basic

/-!
# Compaction

Dropping the slots of everything that is no longer part of the formula. What is left gets new
handles in walking order, and the caret follows.
-/

namespace FormulaEditor

/-- The elements and lists that compaction keeps, each at the index of its new handle. -/
structure Survivors where
  lists : List ListId
  elements : List ElementId

namespace Survivors

/-- The content of a formula. -/
def of (f : Formula) : Survivors :=
  ⟨f.allLists, f.allElements⟩

variable (s : Survivors)

/-- The new handle of a list. -/
def list? (l : ListId) : Option ListId :=
  (s.lists.idxOf? l).map ListId.mk

/-- The new handle of an element. -/
def element? (e : ElementId) : Option ElementId :=
  (s.elements.idxOf? e).map ElementId.mk

/-- An element's slot under new handles. -/
def elementSlot? (slot : ElementSlot) : Option ElementSlot := do
  let element ← slot.element.renameLists? s.list?
  match slot.parent with
  | none => some { slot with element }
  | some l => do
    let l ← s.list? l
    some { slot with parent := some l, element }

/-- A list's slot under new handles. -/
def listSlot? (slot : ListSlot) : Option ListSlot := do
  let elements ← slot.elements.mapM s.element?
  match slot.owner with
  | none => some ⟨none, elements⟩
  | some e => do
    let e ← s.element? e
    some ⟨some e, elements⟩

/-- The formula under new handles. -/
def formula? (f : Formula) : Option Formula := do
  let elementSlots ← s.elements.mapM fun e => s.elementSlot? (f.elementSlot e)
  let listSlots ← s.lists.mapM fun l => s.listSlot? (f.listSlot l)
  let root ← s.list? f.root
  some ⟨elementSlots.toArray, listSlots.toArray, root⟩

/-- A place under new handles. -/
def place? (p : Place) : Option Place :=
  (s.list? p.list).map fun list => { p with list }

/-- The caret under new handles. A selection whose anchor is dropped ends, and a caret whose own
list is dropped goes to the end of the formula. -/
def caret (f : Formula) (c : Caret) : Caret :=
  match s.place? c.place with
  | some place =>
    let anchor := c.anchor.bind s.place?
    { place, anchor, selecting := c.selecting && anchor.isSome }
  | none => .ofPlace ⟨⟨0⟩, f.length f.root⟩

end Survivors

/-- Drops every slot that is not part of the formula. Says how many those were. -/
def Document.compact (doc : Document) : Except Misuse (Document × Nat) :=
  let s := Survivors.of doc.formula
  match s.formula? doc.formula with
  | none => .error .staleHandle
  | some formula =>
    .ok ({ doc with formula, caret := s.caret doc.formula doc.caret },
      doc.formula.slotCount - formula.slotCount)

end FormulaEditor
