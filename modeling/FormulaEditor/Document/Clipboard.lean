import FormulaEditor.Document.Delete

/-!
# Copying, cutting and pasting
-/

namespace FormulaEditor.Document

/-- The selection as formula text. -/
def copy (doc : Document) : Except Misuse String :=
  doc.caret.copy doc.formula

/-- Deletes the selection and hands it out as formula text. -/
def cut (doc : Document) : Except Misuse (Document × String) := do
  let text ← doc.copy
  if doc.caret.selecting then do
    let (doc, _) ← doc.delete .left
    .ok (doc, text)
  else .ok (doc, text)

/-- Puts nodes in the place of the selection, or in at the caret, and steps past them. -/
def pasteNodes (doc : Document) (nodes : List Node) : Except Misuse Document := do
  let doc ← if doc.caret.selecting then (doc.delete .left).map Prod.fst else .ok doc
  let (formula, elements) := doc.formula.plantAll nodes
  let p := doc.caret.place
  { doc with formula }.insertElements p.list p.pos elements true

/-- Pastes formula text. Text that cannot be read changes nothing. -/
def paste (doc : Document) (text : String) :
    Except Misuse (Except Tex.ParseError Document) :=
  match Tex.read text with
  | .error error => .ok (.error error)
  | .ok nodes => (doc.pasteNodes nodes).map .ok

end FormulaEditor.Document
