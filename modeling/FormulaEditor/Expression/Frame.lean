import FormulaEditor.Text.Numeral

/-!
# Expressions in the making

An expression is a text together with the statements that have to run before it. While it is
written, its text is kept as tokens, so that a call can still be put around the operand written
last.
-/

namespace FormulaEditor

/-- An expression and the statements it depends on. -/
structure Expression where
  body : String
  expr : String
deriving DecidableEq, Repr, Inhabited

namespace Expression

/-- An expression that depends on nothing. -/
def pure (expr : String) : Expression :=
  ⟨"", expr⟩

/-- The expression without text. -/
def blank : Expression :=
  pure ""

/-- The expression with a fractional part for every integer. -/
def promoteIntegers (e : Expression) : Expression :=
  ⟨Text.promoteIntegers e.body, Text.promoteIntegers e.expr⟩

end Expression

/-- Text under construction: the statements so far, and the tokens so far, last one first. -/
structure Frame where
  body : String
  tokens : List String
deriving DecidableEq, Repr, Inhabited

namespace Frame

/-- A frame with nothing in it. -/
def empty : Frame :=
  ⟨"", []⟩

/-- Adds a token; an empty one is none. -/
def push (frame : Frame) (token : String) : Frame :=
  if token.isEmpty then frame else { frame with tokens := token :: frame.tokens }

/-- Adds statements. -/
def pushBody (frame : Frame) (body : String) : Frame :=
  { frame with body := frame.body ++ body }

/-- Adds an expression with its statements. -/
def add (frame : Frame) (e : Expression) : Frame :=
  (frame.pushBody e.body).push e.expr

/-- Takes the last token away. -/
def pop (frame : Frame) : Frame :=
  { frame with tokens := frame.tokens.tail }

/-- Whether a token ends the operand after it. -/
def isBoundary (token : String) : Bool :=
  token == "+" || token == "-" || token == "*" || token == "="

/-- How many more parens a token closes than it opens. -/
def closingExcess (token : String) : Int :=
  token.toList.foldl
    (fun n c => if c = ')' then n + 1 else if c = '(' then n - 1 else n) 0

/-- How many of the tokens, read from the last one back, make up the last operand. It reaches back
to an operator outside parens or to a paren that opens around it. -/
def operandLength (depth : Int) : List String → Nat
  | [] => 0
  | token :: tokens =>
    let depth := depth + closingExcess token
    if depth < 0 || depth = 0 && isBoundary token then 0
    else operandLength depth tokens + 1

/-- Puts text before and after the last operand. -/
def wrapOperand (frame : Frame) (before after : String) : Frame :=
  let size := operandLength 0 frame.tokens
  { frame with
    tokens := after :: frame.tokens.take size ++ before :: frame.tokens.drop size }

/-- The finished expression. -/
def finish (frame : Frame) : Expression :=
  ⟨frame.body, String.join frame.tokens.reverse⟩

end Frame

end FormulaEditor
