import FormulaEditor.Formula.Element
import FormulaEditor.Misuse

/-!
# The store of a formula

A formula keeps every element and every list of an editing session in slots. A list knows its
elements in order and the element that owns it; an element knows the list that holds it and its
index there. The two directions agree after every operation: element `i` of a list has that list as
its parent and `i` as its index. What an edit removes stays in its slots without a parent, until
compaction drops it.

Reading a slot that was never allocated gives an empty one.
-/

namespace FormulaEditor

/-- An element and where it stands. -/
structure ElementSlot where
  /-- The list that holds the element; none when it is detached. -/
  parent : Option ListId
  /-- The index in that list. -/
  position : Nat
  element : Element
deriving DecidableEq, Repr, Inhabited

/-- A list of elements and whose it is. -/
structure ListSlot where
  /-- The element the list belongs to; none for the root and for detached lists. -/
  owner : Option ElementId
  elements : List ElementId
deriving DecidableEq, Repr, Inhabited

/-- A formula: a root list and all that was ever allocated. -/
structure Formula where
  elementSlots : Array ElementSlot
  listSlots : Array ListSlot
  root : ListId
deriving DecidableEq, Repr, Inhabited

namespace Formula

/-- The formula without elements. -/
def empty : Formula :=
  ⟨#[], #[⟨none, []⟩], ⟨0⟩⟩

section Reading

variable (f : Formula)

/-- The slot of an element. -/
def elementSlot (e : ElementId) : ElementSlot :=
  f.elementSlots[e.index]?.getD ⟨none, 0, .atom ""⟩

/-- The slot of a list. -/
def listSlot (l : ListId) : ListSlot :=
  f.listSlots[l.index]?.getD ⟨none, []⟩

/-- The element behind a handle. -/
def element (e : ElementId) : Element :=
  (f.elementSlot e).element

/-- The list that holds an element. -/
def parent (e : ElementId) : Option ListId :=
  (f.elementSlot e).parent

/-- The index of an element in the list that holds it. -/
def position (e : ElementId) : Nat :=
  (f.elementSlot e).position

/-- The elements of a list. -/
def elements (l : ListId) : List ElementId :=
  (f.listSlot l).elements

/-- The element that a list belongs to. -/
def owner (l : ListId) : Option ElementId :=
  (f.listSlot l).owner

/-- How many elements a list has. -/
def length (l : ListId) : Nat :=
  (f.elements l).length

/-- What an element is, contents aside. -/
def kind (e : ElementId) : Kind :=
  (f.element e).kind

/-- The lists of an element. -/
def listsOf (e : ElementId) : List ListId :=
  (f.element e).lists

/-- How many slots are allocated, those of detached content included. -/
def slotCount : Nat :=
  f.elementSlots.size + f.listSlots.size

end Reading

section Writing

variable (f : Formula)

/-- Changes the slot of an element. -/
def modifyElement (e : ElementId) (change : ElementSlot → ElementSlot) : Formula :=
  { f with elementSlots := f.elementSlots.modify e.index change }

/-- Changes the slot of a list. -/
def modifyList (l : ListId) (change : ListSlot → ListSlot) : Formula :=
  { f with listSlots := f.listSlots.modify l.index change }

/-- Puts another element behind a handle. -/
def setElement (e : ElementId) (element : Element) : Formula :=
  f.modifyElement e fun slot => { slot with element }

/-- Takes an element's parent away. -/
def detach (e : ElementId) : Formula :=
  f.modifyElement e fun slot => { slot with parent := none }

/-- Takes a list's owner away. -/
def disown (l : ListId) : Formula :=
  f.modifyList l fun slot => { slot with owner := none }

/-- Allocates a detached element. -/
def allocElement (element : Element) : Formula × ElementId :=
  ({ f with elementSlots := f.elementSlots.push ⟨none, 0, element⟩ }, ⟨f.elementSlots.size⟩)

/-- Allocates a list without elements. -/
def allocList (owner : Option ElementId) : Formula × ListId :=
  ({ f with listSlots := f.listSlots.push ⟨owner, []⟩ }, ⟨f.listSlots.size⟩)

/-- Tells each element of a list where it stands. -/
def reindex (l : ListId) : Formula :=
  (f.elements l).zipIdx.foldl
    (fun f (e, i) => f.modifyElement e fun slot => { slot with parent := some l, position := i }) f

/-- Puts `replacement` in the place of the elements from `start` up to `stop` of a list, as far as
the list reaches. The removed elements are handed out, detached. -/
def replaceRange (l : ListId) (start stop : Nat) (replacement : List ElementId) :
    Formula × List ElementId :=
  let elements := f.elements l
  let removed := (elements.drop start).take (stop - start)
  let kept := elements.take start ++ replacement ++ elements.drop stop
  let f := f.modifyList l fun slot => { slot with elements := kept }
  let f := removed.foldl detach f
  (f.reindex l, removed)

/-- Replaces a range of a list, which has to lie inside it. -/
def splice (l : ListId) (start stop : Nat) (replacement : List ElementId) :
    Except Misuse (Formula × List ElementId) :=
  if start ≤ stop && stop ≤ f.length l then .ok (f.replaceRange l start stop replacement)
  else .error .positionOutOfRange

/-- Takes every element out of a list. -/
def drain (l : ListId) : Formula × List ElementId :=
  f.replaceRange l 0 (f.length l) []

/-- A new list of an element, made of elements that have no parent yet. -/
def adoptList (owner : ElementId) (elements : List ElementId) : Formula × ListId :=
  let (f, l) := f.allocList (some owner)
  let f := f.modifyList l fun slot => { slot with elements }
  (f.reindex l, l)

end Writing

end Formula

end FormulaEditor
