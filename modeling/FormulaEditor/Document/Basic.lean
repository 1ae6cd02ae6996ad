import FormulaEditor.Caret.Movement
import FormulaEditor.Caret.Selection
import FormulaEditor.Formula.Path

/-!
# Documents

A document is a formula with a caret in it. Edits change the two together, so that the caret is at a
place of the formula after each of them.
-/

namespace FormulaEditor

/-- A formula under a caret. -/
structure Document where
  formula : Formula
  caret : Caret
  /-- Whether typed words turn into what they stand for. -/
  convertsWords : Bool
deriving DecidableEq, Repr, Inhabited

namespace Document

/-- A document without content. -/
def empty (convertsWords : Bool) : Document :=
  ⟨.empty, .ofPlace (Formula.startOf Formula.empty.root), convertsWords⟩

/-- A document with the given content, the caret before it. -/
def ofNodes (nodes : List Node) (convertsWords : Bool) : Document :=
  let f := Formula.ofNodes nodes
  ⟨f, .ofPlace (Formula.startOf f.root), convertsWords⟩

/-- The document with its caret elsewhere and the selection as it was. -/
def moveCaret (doc : Document) (place : Place) : Document :=
  { doc with caret := doc.caret.moveTo place }

/-- The document without its selection; the content stays. -/
def cancelSelection (doc : Document) : Document :=
  { doc with caret := doc.caret.cancel }

/-- Selects all content. -/
def selectAll (doc : Document) : Document :=
  { doc with caret := .selectAll doc.formula }

/-- Moves the caret one step and says whether there was one to make. -/
def move (doc : Document) (d : Direction) (select : Bool) : Except Misuse (Document × Bool) := do
  let (caret, moved) ← doc.caret.move doc.formula d select
  .ok ({ doc with caret }, moved)

/-- Puts the caret where a pointer hits. -/
def point (doc : Document) (target : Caret.Target) (side : Direction) (drag : Bool) : Document :=
  { doc with caret := doc.caret.point doc.formula target side drag }

/-- The content as formula text. -/
def tex (doc : Document) : String :=
  doc.formula.tex

/-- Plants a node in the formula, detached. -/
def plant (doc : Document) (node : Node) : Document × ElementId :=
  let (formula, e) := doc.formula.plant node
  ({ doc with formula }, e)

/-- Replaces a run of elements of a list. The caret is not moved. -/
def splice (doc : Document) (l : ListId) (start stop : Nat) (replacement : List ElementId) :
    Except Misuse (Document × List ElementId) := do
  let (formula, removed) ← doc.formula.splice l start stop replacement
  .ok ({ doc with formula }, removed)

/-- Checks that the caret stands at a place of the formula. -/
def checkCaret (doc : Document) : Except Misuse Unit :=
  if doc.formula.length doc.caret.place.list < doc.caret.place.pos then .error .positionOutOfRange
  else if doc.formula.isAttached doc.caret.place.list then .ok ()
  else .error .caretDetached

end Document

end FormulaEditor
