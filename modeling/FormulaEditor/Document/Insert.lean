import FormulaEditor.Document.Delete
import FormulaEditor.Document.Words
import FormulaEditor.Operand

/-!
# Inserting

New elements go in at the caret. A selection is handed to the new element if that can hold it, and
is gone otherwise. A fraction or exponent typed next to content takes in the operand there.
-/

namespace FormulaEditor

namespace Formula

/-- The element whose lists hold a given one. -/
def holder? (f : Formula) (e : ElementId) : Option ElementId :=
  (f.parent e).bind f.owner

/-- Whether an element is one of the given ones or inside one of them, at most `depth` lists
down. -/
def isInside (f : Formula) (elements : List ElementId) : Nat → ElementId → Bool
  | 0, e => elements.contains e
  | depth + 1, e =>
    elements.contains e || (f.holder? e).any (f.isInside elements depth)

/-- The place at which an element takes in a selection, if it has one. Scripts take it in at the
beginning of their acceptor when they stand to the left of it. -/
def receivingPlace? (f : Formula) (e : ElementId) (d : Direction) : Option Place :=
  match f.element e with
  | .frac numerator _ => some (f.endOf numerator)
  | .wrapped _ argument => some (f.endOf argument)
  | .scripts _ _ (some acceptor) =>
    some (if d = .left then startOf acceptor else f.endOf acceptor)
  | _ => none

/-- Opens a half of scripts, which becomes their acceptor, and says which list it is. -/
def openScript (f : Formula) (e : ElementId) (superscript : Bool) :
    Except Misuse (Formula × ListId) :=
  match f.element e with
  | .scripts exponent subscript _ =>
    let (f, half) := match if superscript then exponent else subscript with
      | some half => (f, half)
      | none => f.adoptList e []
    let scripts : Element :=
      if superscript then .scripts (some half) subscript (some half)
      else .scripts exponent (some half) (some half)
    .ok (f.setElement e scripts, half)
  | _ => .error .notScripts

/-- The parts that the elements of a list play in operands. -/
def operandTokens (f : Formula) (l : ListId) : List OperandToken :=
  (f.elements l).map fun e => .ofKind (f.kind e)

end Formula

namespace Document

/-- Hands detached elements to an element, if it can hold them. -/
def acceptSelection (doc : Document) (e : ElementId) (selection : List ElementId) (d : Direction) :
    Except Misuse Document :=
  let f := doc.formula
  if f.isInside selection f.listSlots.size e then .error .selectionHoldsElement
  else match f.receivingPlace? e d with
    | none => .ok doc
    | some p => do
      let (doc, _) ← doc.splice p.list p.pos p.pos selection
      .ok doc

/-- Deletes the selection and hands it to an element. Says how many elements that were; none without
a selection. -/
def giveSelection (doc : Document) (e : ElementId) (d : Direction) :
    Except Misuse (Document × Option Nat) :=
  if doc.caret.selecting then do
    let (doc, selection) ← doc.delete d
    let doc ← doc.acceptSelection e selection d
    .ok (doc, some selection.length)
  else .ok (doc, none)

/-- Puts a detached element in at the caret and steps past it. Words are read again, and the caret
goes into the element if that takes it. -/
def place (doc : Document) (e : ElementId) : Except Misuse Document :=
  if (doc.formula.parent e).isSome then .error .elementAttached
  else do
    let p := doc.caret.place
    let (doc, _) ← doc.splice p.list p.pos p.pos [e]
    let doc := doc.moveCaret ⟨p.list, p.pos + 1⟩
    let doc ← if doc.convertsWords then doc.convertWords p.list else .ok doc
    match (doc.formula.element e).acceptor? with
    | some acceptor => .ok (doc.moveCaret (doc.formula.endOf acceptor))
    | none => .ok doc

/-- Inserts a detached element, which first takes in the selection. -/
def insert (doc : Document) (e : ElementId) (d : Direction) : Except Misuse Document := do
  let (doc, _) ← doc.giveSelection e d
  doc.place e

/-- Inserts a node. -/
def insertNode (doc : Document) (node : Node) (d : Direction) : Except Misuse Document :=
  let (doc, e) := doc.plant node
  doc.insert e d

/-- Inserts nodes one after the other. -/
def insertNodes (doc : Document) (nodes : List Node) (d : Direction) : Except Misuse Document :=
  nodes.foldlM (fun doc node => doc.insertNode node d) doc

/-- Inserts a fraction or exponent around the operands beside the caret. The caret ends at the
beginning of the denominator if there was an operand to the left, else of the element's first
list. -/
def insertAround (doc : Document) (kind : GreedyKind) : Except Misuse Document := do
  let p := doc.caret.place
  let tokens := doc.formula.operandTokens p.list
  if tokens.length < p.pos then .error .positionOutOfRange
  else
    let takeLeft := if kind.takesLeft then OperandToken.absorbLeft (tokens.take p.pos) else 0
    let takeRight := OperandToken.absorbRight (tokens.drop p.pos)
    let (doc, right) ← doc.splice p.list p.pos (p.pos + takeRight) []
    let (doc, left) ← doc.splice p.list (p.pos - takeLeft) p.pos []
    let (doc, e) := (doc.moveCaret ⟨p.list, p.pos - takeLeft⟩).plant kind.emptyNode
    let doc ← match doc.formula.element e with
      | .frac numerator denominator => do
        let (doc, _) ← doc.splice numerator 0 0 left
        let (doc, _) ← doc.splice denominator 0 0 right
        .ok doc
      | .scripts (some exponent) _ _ => do
        let (doc, _) ← doc.splice exponent 0 0 right
        let (formula, _) ← doc.formula.openScript e true
        .ok { doc with formula }
      | _ => .ok doc
    let doc ← doc.place e
    let side : Direction := if left.isEmpty then .right else .left
    match (doc.formula.element e).boundary? side with
    | some l => .ok (doc.moveCaret (Formula.startOf l))
    | none => .ok doc

/-- Inserts a fraction or exponent: around the selection, or around the operands beside the
caret. -/
def insertGreedy (doc : Document) (kind : GreedyKind) : Except Misuse Document :=
  if doc.caret.selecting then do
    let (doc, e) := doc.plant kind.emptyNode
    let formula ← match kind with
      | .superscript => (doc.formula.openScript e true).map Prod.fst
      | .frac => .ok doc.formula
    { doc with formula }.insert e .left
  else doc.insertAround kind

/-- Scripts beside the caret, or beside the anchor in the same list, that can be opened again; and
on which side of them the caret stands. Scripts in the selection cannot, since they would have to
hold themselves. -/
def reusableScripts? (doc : Document) (selected : Option Selection) :
    Option (ElementId × Direction) :=
  let f := doc.formula
  let here := doc.caret.place
  let usable (i : Nat) : Bool := match selected with
    | some s => s.list = here.list && !(s.start ≤ i && i < s.stop)
    | none => true
  let scriptsAt? (i : Nat) : Option ElementId := do
    let e ← (f.elements here.list)[i]?
    if usable i && (f.kind e).isScripts then some e else none
  let beside (pos : Nat) : Option (ElementId × Direction) :=
    let before := if pos = 0 then none else scriptsAt? (pos - 1)
    (before.map (·, .right)) <|> ((scriptsAt? pos).map (·, .left))
  let anchor := doc.caret.anchor.filter fun p => p.list = here.list
  beside here.pos <|> anchor.bind fun p => beside p.pos

/-- Opens an exponent or subscript beside the caret, in scripts that are there or in new ones, and
moves into it. A selection goes into it too. -/
def insertScript (doc : Document) (superscript : Bool) : Except Misuse Document := do
  let selected ← doc.caret.selected? doc.formula
  match doc.reusableScripts? selected with
  | some (e, d) => do
    let (formula, half) ← doc.formula.openScript e superscript
    let (doc, given) ← { doc with formula }.giveSelection e d
    if d = .right then .ok (doc.moveCaret (doc.formula.endOf half))
    else .ok (doc.moveCaret ⟨half, given.getD 0⟩)
  | none => do
    let (doc, e) := doc.plant (.scripts none none)
    let (formula, _) ← doc.formula.openScript e superscript
    { doc with formula }.insert e .right

end Document

end FormulaEditor
