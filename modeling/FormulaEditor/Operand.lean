import FormulaEditor.Node.Basic

/-!
# Operands beside a caret

A fraction or exponent typed next to content takes in the operand there: a run of digits, a single
symbol, or a balanced group in parens, with the scripts that follow it. The scans see each element
only by the part it can play in an operand.
-/

namespace FormulaEditor

/-- The part an element plays in an operand. -/
inductive OperandToken
  /-- A digit or a decimal point. -/
  | number
  /-- Any other symbol, or a root. -/
  | symbol
  | scripts
  | leftParen
  | rightParen
  | other
deriving DecidableEq, Repr, Inhabited

namespace OperandToken

/-- The part that an element of this kind plays. -/
def ofKind (kind : Kind) : OperandToken :=
  if kind.isNumberPart then number
  else match kind with
    | .atom _ | .radical => symbol
    | .scripts => scripts
    | .paren c => if isLeftParen c then leftParen else rightParen
    | _ => other

/-- The token as a scan in the other direction sees it. -/
def flipped : OperandToken → OperandToken
  | leftParen => rightParen
  | rightParen => leftParen
  | token => token

/-- The length of the operand that the tokens begin with, when `taken` tokens of it are behind and
`level` groups are open. A group that never closes reaches to the end; one that closes without
having been opened is no operand. -/
def operandLengthFrom : Nat → Nat → List OperandToken → Nat
  | _, taken, [] => max taken 1
  | level, taken, token :: rest =>
    match token, level with
    | rightParen, 0 => 0
    | rightParen, 1 => taken + 1
    | rightParen, level + 2 => operandLengthFrom (level + 1) (taken + 1) rest
    | leftParen, level => operandLengthFrom (level + 1) (taken + 1) rest
    | number, level => operandLengthFrom level (taken + 1) rest
    | _, 0 => max taken 1
    | _, level + 1 => operandLengthFrom (level + 1) (taken + 1) rest

/-- The length of the operand that the tokens begin with; zero where none begins. -/
def operandLength (tokens : List OperandToken) : Nat :=
  match tokens.head? with
  | some number | some symbol | some leftParen => operandLengthFrom 0 0 tokens
  | _ => 0

/-- How many tokens directly before a caret form its left operand. Scripts at the end belong to
it. -/
def absorbLeft (before : List OperandToken) : Nat :=
  let backwards := before.reverse
  let base := backwards.dropWhile (· == scripts)
  match operandLength (base.map flipped) with
  | 0 => 0
  | n => n + (backwards.length - base.length)

/-- How many tokens directly after a caret form its right operand. Scripts after it belong to it. -/
def absorbRight (after : List OperandToken) : Nat :=
  match operandLength after with
  | 0 => 0
  | n => n + ((after.drop n).takeWhile (· == scripts)).length

end OperandToken

/-- What can be typed around operands. -/
inductive GreedyKind
  /-- Takes the left operand above and the right one below. -/
  | frac
  /-- Takes the right operand as its exponent. -/
  | superscript
deriving DecidableEq, Repr, Inhabited

namespace GreedyKind

/-- Whether the left operand is taken in. -/
def takesLeft : GreedyKind → Bool
  | frac => true
  | superscript => false

/-- The notation before anything is taken in. -/
def emptyNode : GreedyKind → Node
  | frac => .frac [] []
  | superscript => .scripts (some []) none

end GreedyKind

end FormulaEditor
