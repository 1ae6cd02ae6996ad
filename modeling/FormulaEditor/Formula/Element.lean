import FormulaEditor.Direction
import FormulaEditor.Node.Basic

/-!
# Stored elements

A formula under edit keeps its nodes as elements that refer to their lists by handles. Handles stay
the same while content moves about, so an edit can follow an element from one list to another.
-/

namespace FormulaEditor

/-- Handle of an element of a formula. -/
structure ElementId where
  index : Nat
deriving DecidableEq, Repr, Inhabited

/-- Handle of a list of a formula. -/
structure ListId where
  index : Nat
deriving DecidableEq, Repr, Inhabited

/-- A node as a formula stores it. -/
inductive Element where
  /-- A symbol, in its italic form. -/
  | atom (italic : String)
  | binary (op : BinaryOp)
  | function (name : String)
  | paren (char : Char)
  | frac (numerator denominator : ListId)
  | radical (index : Option ListId) (radicand : ListId)
  /-- Scripts remember the half opened last, which takes the caret and what is handed over. -/
  | scripts (exponent subscript acceptor : Option ListId)
  | wrapped (wrap : Wrap) (argument : ListId)
  | big (op : BigOp) (top bottom : ListId)
deriving DecidableEq, Repr, Inhabited

namespace Element

/-- What the element is, contents aside. -/
def kind : Element → Kind
  | atom italic => .atom (Text.unitalicize italic)
  | binary op => .binary op
  | function name => .function name
  | paren char => .paren char
  | frac _ _ => .frac
  | radical _ _ => .radical
  | scripts _ _ _ => .scripts
  | wrapped wrap _ => .wrapped wrap
  | big op _ _ => .big op

/-- The lists of an element, in the order in which a caret visits them. -/
def lists : Element → List ListId
  | frac numerator denominator => [numerator, denominator]
  | radical index radicand => index.toList ++ [radicand]
  | scripts exponent subscript _ => exponent.toList ++ subscript.toList
  | wrapped _ argument => [argument]
  | big _ top bottom => [top, bottom]
  | _ => []

/-- The name under which an atom or function is stored. -/
def storedName? : Element → Option String
  | atom italic => some italic
  | function name => some name
  | _ => none

/-- Where the caret goes once the element is inserted. -/
def acceptor? : Element → Option ListId
  | frac _ denominator => some denominator
  | wrapped _ argument => some argument
  | scripts _ _ acceptor => acceptor
  | _ => none

/-- Where the caret goes once a typed word has turned into the element. -/
def opening? : Element → Option ListId
  | big _ _ bottom => some bottom
  | _ => none

/-- The list a caret reaches that enters the element in a direction. -/
def boundary? (element : Element) (d : Direction) : Option ListId :=
  if d.isBackward then element.lists.getLast? else element.lists.head?

/-- The list next to `list` in a direction; from a list of another element, the boundary. -/
def sibling? (element : Element) (d : Direction) (list : ListId) : Option ListId :=
  match element.lists.idxOf? list with
  | none => element.boundary? d
  | some i =>
    if d.isBackward then if i = 0 then none else element.lists[i - 1]?
    else element.lists[i + 1]?

/-- Whether a caret can enter the element. -/
def isComposite (element : Element) : Bool :=
  !element.lists.isEmpty

/-- The element with each of its handles renamed. Fails where a handle has no new name. -/
def renameLists? (rename : ListId → Option ListId) : Element → Option Element
  | frac numerator denominator => do
    let numerator ← rename numerator
    let denominator ← rename denominator
    some (frac numerator denominator)
  | radical none radicand => do
    let radicand ← rename radicand
    some (radical none radicand)
  | radical (some index) radicand => do
    let radicand ← rename radicand
    let index ← rename index
    some (radical (some index) radicand)
  | scripts exponent subscript acceptor => do
    let half : Option ListId → Option (Option ListId)
      | none => some none
      | some list => (rename list).map some
    let exponent ← half exponent
    let subscript ← half subscript
    let acceptor ← half acceptor
    some (scripts exponent subscript acceptor)
  | wrapped wrap argument => do
    let argument ← rename argument
    some (wrapped wrap argument)
  | big op top bottom => do
    let top ← rename top
    let bottom ← rename bottom
    some (big op top bottom)
  | leaf => some leaf

end Element

end FormulaEditor
