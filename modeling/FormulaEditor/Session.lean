import FormulaEditor.Decimal.Display
import FormulaEditor.Document.Clipboard
import FormulaEditor.Document.Compact
import FormulaEditor.Document.Insert
import FormulaEditor.Expression.Compiler
import FormulaEditor.Row.Basic
import FormulaEditor.Settings

/-!
# Editing sessions

A session turns keys into edits of one document.
-/

namespace FormulaEditor

/-- How a session behaves. -/
structure EditorOptions where
  /-- Whether letters that spell a word turn into what it stands for. -/
  convertSpecials : Bool := true
  /-- Whether a slash takes in the operands beside it. -/
  greedyFraction : Bool := true
deriving DecidableEq, Repr, Inhabited

namespace EditorOptions

/-- The options to start from. -/
def standard : EditorOptions := {}

/-- Every key inserts just what it says. -/
def literal : EditorOptions := ⟨false, false⟩

/-- The options with one setting changed. -/
def set? (o : EditorOptions) (name : String) (value : Setting) : Option EditorOptions :=
  match name with
  | "convert_specials" => value.flag?.map fun v => { o with convertSpecials := v }
  | "greedy_fraction" => value.flag?.map fun v => { o with greedyFraction := v }
  | _ => some o

/-- The standard options with the given settings. -/
def ofSettings? (settings : List (String × Setting)) : Option EditorOptions :=
  settings.foldlM (fun o (name, value) => o.set? name value) standard

/-- Options that go by a name. -/
def named? : String → Option EditorOptions
  | "literal" => some literal
  | _ => none

end EditorOptions

/-- A key that types no character. -/
inductive Key
  | move (direction : Direction) (select : Bool)
  | backspace
  | delete
  | selectAll
  | copy
  | cut
deriving DecidableEq, Repr, Inhabited

/-- What a key did. -/
inductive KeyResult
  /-- Nothing; the key is for someone else. -/
  | ignored
  /-- Moved the caret or changed the selection. -/
  | moved
  /-- Changed the formula. -/
  | edited
  /-- Put text on the clipboard. -/
  | clipboard (text : String)
deriving DecidableEq, Repr, Inhabited

/-- A document being edited. -/
structure Session where
  document : Document
  options : EditorOptions
deriving DecidableEq, Repr, Inhabited

namespace Session

/-- A session without content. -/
def new (options : EditorOptions) : Session :=
  ⟨.empty options.convertSpecials, options⟩

/-- Replaces the whole content by formula text, with the caret at its end. -/
def setTex (s : Session) (text : String) : Except Tex.ParseError Session := do
  let nodes ← Tex.read text
  let doc := Document.ofNodes nodes s.options.convertSpecials
  .ok { s with document := doc.moveCaret (doc.formula.endOf doc.formula.root) }

/-- A session on formula text. -/
def ofTex (text : String) (options : EditorOptions) : Except Tex.ParseError Session :=
  (new options).setTex text

/-- The session after an edit of its document. -/
def edit (s : Session) (change : Document → Except Misuse Document) : Except Misuse Session := do
  let document ← change s.document
  .ok { s with document }

/-- What a typed character asks for. -/
inductive Typed
  /-- A digit in a raised glyph: an exponent typed and left again. -/
  | raised (digit : Nat)
  | node (node : Node)
  | fraction
  | superscript
  | subscript
deriving Repr, Inhabited

/-- What a character asks for; nothing if no key types it. -/
def Typed.ofChar? (c : Char) : Option Typed :=
  match Symbol.superscriptDigits.idxOf? c with
  | some digit => some (raised digit)
  | none =>
    if Unicode.isAlphanumeric c then some (node (.ofChar c))
    else match BinaryOp.ofKey? c with
      | some op => some (node (.binary op))
      | none =>
        if c == '!' || c == '.' then some (node (.ofChar c))
        else if c == '\'' then some (node (.ofChar '′'))
        else if isParen c then some (node (.paren c))
        else if c == '/' then some fraction
        else if c == '^' then some superscript
        else if c == '_' then some subscript
        else if c == '|' then some (node (.wrapped .abs []))
        else none

/-- Edits a document as a typed character asks. -/
def Typed.apply (greedyFraction : Bool) (doc : Document) : Typed → Except Misuse Document
  | raised digit => do
    let doc ← doc.insertScript true
    let doc ← doc.insertNode (.atom (toString digit)) .left
    let (doc, _) ← doc.move .right false
    .ok doc
  | node n => doc.insertNode n .left
  | fraction =>
    if greedyFraction then doc.insertGreedy .frac else doc.insertNode (.frac [] []) .left
  | superscript => doc.insertScript true
  | subscript => doc.insertScript false

/-- Types a character. -/
def typeChar (s : Session) (c : Char) : Except Misuse (Session × KeyResult) :=
  match Typed.ofChar? c with
  | none => .ok (s, .ignored)
  | some typed => do
    let s ← s.edit (typed.apply s.options.greedyFraction)
    .ok (s, .edited)

/-- Types the characters of a text in turn. -/
def typeChars (s : Session) : List Char → Except Misuse (Session × List KeyResult)
  | [] => .ok (s, [])
  | c :: cs => do
    let (s, result) ← s.typeChar c
    let (s, results) ← s.typeChars cs
    .ok (s, result :: results)

/-- Moves the caret one step and says whether there was one to make. -/
def moveCaret (s : Session) (d : Direction) (select : Bool) : Except Misuse (Session × Bool) := do
  let (document, moved) ← s.document.move d select
  .ok ({ s with document }, moved)

/-- Copies the selection. -/
def copy (s : Session) : Except Misuse String :=
  s.document.copy

/-- Cuts the selection. -/
def cut (s : Session) : Except Misuse (Session × String) := do
  let (document, text) ← s.document.cut
  .ok ({ s with document }, text)

/-- Pastes formula text. Text that cannot be read changes nothing. -/
def paste (s : Session) (text : String) : Except Misuse (Except Tex.ParseError Session) := do
  match ← s.document.paste text with
  | .error error => .ok (.error error)
  | .ok document => .ok (.ok { s with document })

/-- Presses a key that types no character. -/
def press (s : Session) : Key → Except Misuse (Session × KeyResult)
  | .move d select => do
    let (s, moved) ← s.moveCaret d select
    .ok (s, if moved then .moved else .ignored)
  | .backspace => do
    let s ← s.edit fun doc => (doc.delete .left).map Prod.fst
    .ok (s, .edited)
  | .delete => do
    let s ← s.edit fun doc => (doc.delete .right).map Prod.fst
    .ok (s, .edited)
  | .selectAll => .ok ({ s with document := s.document.selectAll }, .moved)
  | .copy => do
    let text ← s.copy
    .ok (s, .clipboard text)
  | .cut => do
    let (s, text) ← s.cut
    .ok (s, .clipboard text)

/-- Puts the caret where a pointer hits. -/
def point (s : Session) (target : Caret.Target) (side : Direction) (drag : Bool) : Session :=
  { s with document := s.document.point target side drag }

/-- Drops the slots of what edits have removed, and says how many those were. -/
def compact (s : Session) : Except Misuse (Session × Nat) := do
  let (document, freed) ← s.document.compact
  .ok ({ s with document }, freed)

/-- The content as formula text. -/
def tex (s : Session) : String :=
  s.document.tex

/-- The content as an expression. -/
def compile (s : Session) (compiler : Compiler) : Expression × Compiler :=
  compiler.compile s.document.formula.nodes

/-- A value at the precision of a slider: four decimals, unless it is too large to have any. -/
def sliderValue (value : Float) : Float :=
  (if value.abs < 1e12 then (value * 10000).round / 10000 else value) + 0

/-- The nodes that write a slider's value. -/
def sliderNodes (text : String) : List Node :=
  text.toList.filterMap fun c =>
    if c == '-' then some (.binary .minus)
    else if c.isDigit || c == '.' then some (.ofChar c)
    else none

/-- Replaces all that follows the first equals sign of the root by a value. Fails for a value that
is not finite, and without an equals sign. -/
def setSlider (s : Session) (value : Float) : Except Misuse (Session × Bool) :=
  if !value.isFinite then .ok (s, false)
  else
    let doc := s.document
    let root := doc.formula.root
    match (doc.formula.elements root).findIdx? fun e => doc.formula.kind e = .binary .equals with
    | none => .ok (s, false)
    | some equals => do
      let (doc, _) ←
        doc.cancelSelection.splice root (equals + 1) (doc.formula.length root) []
      let doc := doc.moveCaret (doc.formula.endOf root)
      let text := Decimal.display (sliderValue value)
      let document ← doc.insertNodes (sliderNodes text) .left
      .ok ({ s with document }, true)

end Session

end FormulaEditor
