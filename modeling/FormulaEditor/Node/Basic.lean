import FormulaEditor.Misuse
import FormulaEditor.Symbol.Word
import FormulaEditor.Text.Italic
import FormulaEditor.Text.Numeral

/-!
# Notation

A formula is a list of nodes. Leaves are single symbols, operators, function names and parens; the
other nodes hold lists of nodes of their own. `Kind` is what a node is without its contents, and
answers every question that does not look inside.
-/

namespace FormulaEditor

/-- The binary operators. -/
inductive BinaryOp
  | plus
  | minus
  | times
  | equals
deriving DecidableEq, Repr, Inhabited

namespace BinaryOp

/-- The operator that a character reads as. -/
def ofChar? : Char → Option BinaryOp
  | '+' => some plus
  | '-' | '−' => some minus
  | '*' | '×' | '·' => some times
  | '=' => some equals
  | _ => none

/-- Whether the character is an operator on the keyboard. -/
def isKey (c : Char) : Bool :=
  c == '+' || c == '-' || c == '*' || c == '='

/-- The operator that a key types. -/
def ofKey? (c : Char) : Option BinaryOp :=
  if isKey c then ofChar? c else none

/-- The sign shown for the operator. -/
def glyph : BinaryOp → Char
  | plus => '+'
  | minus => '−'
  | times => '×'
  | equals => '='

/-- Room on either side of the sign; an equals sign gets more. -/
def spacing : BinaryOp → Nat
  | equals => 6
  | _ => 4

/-- The operator in generated text. -/
def symbol : BinaryOp → String
  | plus => "+"
  | minus => "-"
  | times => "*"
  | equals => "="

end BinaryOp

/-- Pairs of delimiters around one argument. -/
inductive Wrap
  | abs
  | floor
  | ceil
deriving DecidableEq, Repr, Inhabited

namespace Wrap

/-- The delimiters shown on either side. -/
def delimiters : Wrap → Char × Char
  | abs => ('|', '|')
  | floor => ('⌊', '⌋')
  | ceil => ('⌈', '⌉')

/-- The function a pair stands for. -/
def name : Wrap → String
  | abs => "abs"
  | floor => "floor"
  | ceil => "ceil"

end Wrap

/-- Operators with limits. -/
inductive BigOp
  | sum
  | product
deriving DecidableEq, Repr, Inhabited

/-- The sign of an operator with limits. -/
def BigOp.glyph : BigOp → Char
  | sum => '∑'
  | product => '∏'

/-- The opening parens. -/
def isLeftParen (c : Char) : Bool :=
  c == '(' || c == '[' || c == '{'

/-- The closing parens. -/
def isRightParen (c : Char) : Bool :=
  c == ')' || c == ']' || c == '}'

/-- The six parens, three shapes in two directions. -/
def isParen (c : Char) : Bool :=
  isLeftParen c || isRightParen c

/-- What a node is, contents aside. -/
inductive Kind
  | atom (text : String)
  | binary (op : BinaryOp)
  | function (name : String)
  | paren (char : Char)
  | frac
  | radical
  | scripts
  | wrapped (wrap : Wrap)
  | big (op : BigOp)
deriving DecidableEq, Repr, Inhabited

namespace Kind

/-- A single symbol. -/
def isAtom : Kind → Bool
  | atom _ => true
  | _ => false

/-- The atom with this text. -/
def isAtomNamed (text : String) : Kind → Bool
  | atom t => t == text
  | _ => false

/-- A digit run or a decimal point. -/
def isNumberPart : Kind → Bool
  | atom t => Text.isNumberPart t
  | _ => false

/-- A binary operator. -/
def isBinary : Kind → Bool
  | binary _ => true
  | _ => false

/-- A function name. -/
def isFunction : Kind → Bool
  | function _ => true
  | _ => false

/-- Scripts of the node before them. -/
def isScripts : Kind → Bool
  | scripts => true
  | _ => false

/-- A sum or product. -/
def isBig : Kind → Bool
  | big _ => true
  | _ => false

/-- A paren of either direction. -/
def isParen : Kind → Bool
  | paren _ => true
  | _ => false

/-- An opening paren. -/
def isLeftParen : Kind → Bool
  | paren c => FormulaEditor.isLeftParen c
  | _ => false

/-- A paren that does not open. -/
def isRightParen : Kind → Bool
  | paren c => !FormulaEditor.isLeftParen c
  | _ => false

/-- The plain text of a symbol or function name. -/
def text? : Kind → Option String
  | atom t => some t
  | function name => some (Text.unitalicize name)
  | _ => none

/-- The name that outlines and listings give a kind. -/
def name : Kind → String
  | atom _ => "Atom"
  | binary _ => "BinaryOperatorAtom"
  | function _ => "OperatorAtom"
  | paren _ => "Paren"
  | frac => "Frac"
  | radical => "Radical"
  | scripts => "SuperscriptSubscript"
  | wrapped .abs => "Abs"
  | wrapped .floor => "Floor"
  | wrapped .ceil => "Ceil"
  | big _ => "Sum"

end Kind

/-- A piece of notation with its contents. -/
inductive Node where
  /-- A letter, digit or symbol. -/
  | atom (text : String)
  | binary (op : BinaryOp)
  /-- A named function such as `sin`, set upright. -/
  | function (name : String)
  | paren (char : Char)
  | frac (numerator denominator : List Node)
  /-- A root; a square root has no index. -/
  | radical (index : Option (List Node)) (radicand : List Node)
  /-- An exponent, a subscript or both, belonging to the node before. -/
  | scripts (exponent subscript : Option (List Node))
  | wrapped (wrap : Wrap) (argument : List Node)
  /-- A sum or product with its upper and lower limit. -/
  | big (op : BigOp) (top bottom : List Node)
deriving Repr, Inhabited, BEq

namespace Node

/-- What the node is, contents aside. Italic letters count as plain ones. -/
def kind : Node → Kind
  | atom text => .atom (Text.unitalicize text)
  | binary op => .binary op
  | function name => .function name
  | paren char => .paren char
  | frac _ _ => .frac
  | radical _ _ => .radical
  | scripts _ _ => .scripts
  | wrapped wrap _ => .wrapped wrap
  | big op _ _ => .big op

/-- The lists a node holds, in the order in which a caret visits them. -/
def lists : Node → List (List Node)
  | frac numerator denominator => [numerator, denominator]
  | radical index radicand => index.toList ++ [radicand]
  | scripts exponent subscript => exponent.toList ++ subscript.toList
  | wrapped _ argument => [argument]
  | big _ top bottom => [top, bottom]
  | _ => []

/-- An atom of one character. -/
def ofChar (c : Char) : Node :=
  atom (String.singleton c)

/-- A paren with a given character, which has to be one of the six. -/
def ofParen (c : Char) : Except Misuse Node :=
  if isParen c then .ok (paren c) else .error .notParen

/-- A fresh sum or product: its lower limit starts as a lone equals sign. -/
def emptyBig (op : BigOp) : Node :=
  big op [] [binary .equals]

/-- What a special word or a single typed character stands for. Other names are functions. -/
def ofWord (word : String) : Node :=
  match word with
  | "sqrt" => radical none []
  | "nthroot" => radical (some []) []
  | "sum" => emptyBig .sum
  | "prod" => emptyBig .product
  | "floor" => wrapped .floor []
  | "ceil" => wrapped .ceil []
  | _ =>
    if Symbol.isFunction word then function word
    else match word.toList with
      | [c] => (BinaryOp.ofKey? c).elim (atom word) binary
      | _ => (Symbol.greekLetter? word).elim (function word) ofChar

end Node

end FormulaEditor
