import FormulaEditor.Document.Basic

/-!
# Words in a document

Symbols and function names that stand side by side form a run of text. The run at the caret is read
again for special words; where the reading differs from what is there, the rest of the run is
replaced by what the words stand for. A run that is read as it stands is left alone.
-/

namespace FormulaEditor

namespace Formula

/-- Whether an element is part of a run of text. -/
def isText (f : Formula) (e : ElementId) : Bool :=
  (f.kind e).text?.isSome

/-- The bounds of the run of text around a position of a list. -/
def textRun (f : Formula) (l : ListId) (pos : Nat) : Except Misuse (Nat × Nat) :=
  if pos ≤ f.length l then
    let before := ((f.elements l).take pos).reverse.takeWhile f.isText
    let after := ((f.elements l).drop pos).takeWhile f.isText
    .ok (pos - before.length, pos + after.length)
  else .error .positionOutOfRange

end Formula

/-- The first index at which two lists both have a text and the texts differ. -/
def firstDifference? (names texts : List String) : Option Nat :=
  (names.zip texts).findIdx? fun (name, text) => name != text

namespace Document

/-- Reads the run of text around the caret's position in a list again. The caret goes into the first
new element, or past it where it has nothing to fill in. -/
def convertWords (doc : Document) (l : ListId) : Except Misuse Document := do
  let f := doc.formula
  let (left, right) ← f.textRun l doc.caret.place.pos
  let run := ((f.elements l).drop left).take (right - left)
  let texts := run.filterMap fun e => (f.kind e).text?
  let names := Symbol.splitWords (String.join texts)
  match firstDifference? names texts with
  | none => .ok doc
  | some first =>
    let (formula, planted) := f.plantAll ((names.drop first).map Node.ofWord)
    let doc := { doc with formula }
    let (doc, _) ← doc.splice l (left + first) right planted
    match planted.head?.bind fun changed => (doc.formula.element changed).opening? with
    | some entry => .ok (doc.moveCaret (Formula.startOf entry))
    | none => do
      let (doc, _) ← (doc.moveCaret ⟨l, left + first⟩).move .right false
      .ok doc

end Document

end FormulaEditor
