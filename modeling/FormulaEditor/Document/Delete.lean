import FormulaEditor.Document.Basic

/-!
# Deleting

A key deletes the leaf beside the caret. Beside a composite element it first enters it, and from a
list with nothing left to delete it takes the element around that list apart, keeping what the
element held.
-/

namespace FormulaEditor

namespace Formula

/-- Where a deletion from a place ends up: composite elements beside it are entered, through at most
`depth` of them. -/
def deletionPlace (f : Formula) (d : Direction) : Nat → Place → Place
  | 0, p => p
  | depth + 1, p =>
    match (f.adjacent? p d).bind fun (_, e) => (f.element e).boundary? d with
    | some inner => f.deletionPlace d depth (f.entering d inner)
    | none => p

/-- Empties the lists of an element and takes them from it. Hands out all they held, in order, and
how many elements lay before those of `caller`. -/
def collect (f : Formula) (caller : ListId) (lists : List ListId) :
    Formula × List ElementId × Nat :=
  lists.foldl
    (fun (f, contents, offset) l =>
      let offset := if l = caller then contents.length else offset
      let (f, drained) := f.drain l
      (f.disown l, contents ++ drained, offset))
    (f, [], 0)

end Formula

namespace Document

/-- Puts detached elements into a list. The caret goes behind them or before them. -/
def insertElements (doc : Document) (l : ListId) (pos : Nat) (elements : List ElementId)
    (behind : Bool) : Except Misuse Document := do
  let (doc, _) ← doc.splice l pos pos elements
  .ok (doc.moveCaret ⟨l, if behind then pos + elements.length else pos⟩)

/-- Takes one half from scripts that have both. What it held goes beside the scripts: behind them
from an exponent, before them from a subscript. -/
def dropHalf (doc : Document) (e : ElementId) (outer : ListId) (half exponent subscript : ListId)
    (acceptor : Option ListId) : Except Misuse Document :=
  let fromExponent := exponent = half
  let index := doc.formula.position e
  let (formula, contents) := doc.formula.drain half
  let formula := formula.disown half
  let rest := if fromExponent then subscript else exponent
  let acceptor := if acceptor = some half then some rest else acceptor
  let scripts : Element :=
    if fromExponent then .scripts none (some subscript) acceptor
    else .scripts (some exponent) none acceptor
  let doc := { doc with formula := formula.setElement e scripts }
  if fromExponent then doc.insertElements outer (index + 1) contents false
  else doc.insertElements outer index contents true

/-- Takes an element apart from inside one of its lists. Scripts with two halves lose only that
half; anything else gives way to all it held, and the caret stays at the beginning of what the list
held. A detached element is left alone. -/
def dissolve (doc : Document) (e : ElementId) (caller : ListId) : Except Misuse Document :=
  match doc.formula.parent e with
  | none => .ok doc
  | some outer =>
    match doc.formula.element e with
    | .scripts (some exponent) (some subscript) acceptor =>
      doc.dropHalf e outer caller exponent subscript acceptor
    | element => do
      let index := doc.formula.position e
      let (formula, contents, offset) := doc.formula.collect caller element.lists
      let (doc, _) ← { doc with formula }.splice outer index (index + 1) contents
      .ok (doc.moveCaret ⟨outer, index + offset⟩)

/-- Deletes one element from a place in a direction. At the ends of the root nothing happens. -/
def deleteFrom (doc : Document) (p : Place) (d : Direction) : Except Misuse Document := do
  let p := doc.formula.deletionPlace d doc.formula.listSlots.size p
  let doc := doc.moveCaret p
  match doc.formula.adjacent? p d with
  | some (i, _) => do
    let (doc, _) ← doc.splice p.list i (i + 1) []
    .ok (doc.moveCaret ⟨p.list, i⟩)
  | none =>
    match doc.formula.owner p.list with
    | some e => doc.dissolve e p.list
    | none => .ok doc

/-- Deletes one element of a list: from the caret if it is there, else from the end that a caret
enters the list at. -/
def deleteIn (doc : Document) (l : ListId) (d : Direction) : Except Misuse Document :=
  if d.isVertical then .error .notHorizontal
  else
    let p := if doc.caret.place.list = l then doc.caret.place else doc.formula.entering d l
    doc.deleteFrom p d

/-- Deletes the selection, or one element. Hands out the selected elements, detached. -/
def delete (doc : Document) (d : Direction) : Except Misuse (Document × List ElementId) := do
  match ← doc.caret.selected? doc.formula with
  | some s => do
    let (doc, removed) ← doc.splice s.list s.start s.stop []
    .ok ((doc.moveCaret ⟨s.list, s.start⟩).cancelSelection, removed)
  | none => do
    let doc := if doc.caret.selecting then doc.cancelSelection else doc
    let doc ← doc.deleteIn doc.caret.place.list d
    .ok (doc, [])

end Document

end FormulaEditor
