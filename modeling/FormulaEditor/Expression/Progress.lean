import FormulaEditor.Expression.Frame
import FormulaEditor.Expression.Options
import FormulaEditor.Node.Basic
import FormulaEditor.Text.Blank

/-!
# Writing an expression node by node

Multiplication without a sign is made explicit. A function name without parens opens one that stays
open up to the next operator or closing paren. A sum or product takes what follows it, up to the
next operator or closing paren outside its own parens, as the argument of a loop that adds it up in
a variable; the variable then stands for it.

Each loop variable gets a number, so writing passes a counter along.
-/

namespace FormulaEditor

/-- An expression to be written once it is known which number the next accumulator gets. Answers
with the number after that. -/
abbrev Compilation := Nat → Expression × Nat

/-- A sum or product whose argument is being written. -/
structure OpenSum where
  op : BigOp
  top : Compilation
  bottom : Compilation
  /-- How many parens of the argument are open. -/
  depth : Nat
  frame : Frame

/-- What a node does to the expression it is written into. -/
inductive Meaning
  /-- An exponent of what stands before, or the base of a logarithm. -/
  | scripts (exponent base : Option Compilation)
  /-- A factorial of what stands before. -/
  | bang
  | big (op : BigOp) (top bottom : Compilation)
  /-- Text of its own. -/
  | piece (text : Compilation)

/-- How far an expression is written. -/
structure Progress where
  /-- The node before, unless it is used up. -/
  previous : Option Kind
  /-- Where text goes outside sums. -/
  root : Frame
  /-- The open sums, innermost first. -/
  sums : List OpenSum
  /-- How many parens are open after bare function names. -/
  implicit : Nat
  /-- The number of the next accumulator. -/
  counter : Nat

/-- Whether two nodes side by side are multiplied. -/
def impliesProduct (previous next : Kind) : Bool :=
  !previous.isBinary && !next.isBinary && !next.isScripts && !next.isNumberPart &&
    !next.isRightParen && !previous.isLeftParen && !previous.isFunction && !previous.isBig &&
    !next.isAtomNamed "!"

/-- Whether a node ends implicit parens and sums before it. -/
def Kind.endsArgument (kind : Kind) : Bool :=
  kind.isBinary || kind.isRightParen

/-- Text repeated. -/
def repeated (n : Nat) (text : String) : String :=
  String.join (List.replicate n text)

namespace OpenSum

/-- Where the accumulator starts, and the operator that adds to it. -/
def startAndStep : BigOp → String × String
  | .sum => ("0.0", "+=")
  | .product => ("1.0", "*=")

/-- The variable that a lower limit assigns: the text before its equals sign. -/
def loopVariable (init : String) : String :=
  String.ofList (Text.trim (init.toList.takeWhile (· != '=')))

/-- The loop of a sum and its accumulator. -/
def loopText (op : BigOp) (name : String) (init last argument : Expression) : Expression :=
  let (start, step) := startAndStep op
  let v := loopVariable init.expr
  { body := "\n" ++ init.body ++ "\n" ++ last.body ++ "\nfloat " ++ name ++ " = " ++ start ++
      ";\nfor (float " ++ init.expr ++ "; " ++ v ++ " <= " ++ last.expr ++ "; " ++ v ++
      "++) \x7b\n    " ++ argument.body ++ "\n    " ++ name ++ " " ++ step ++ " " ++
      argument.expr ++ ";\n\x7d"
    expr := name }

/-- The number after a given one. -/
def nextNumber (o : ExprOptions) (n : Nat) : Nat :=
  if o.counterWrap < n + 1 then 0 else n + 1

/-- A sum whose argument is complete, as a loop before its accumulator. -/
def fold (o : ExprOptions) (s : OpenSum) : Compilation := fun counter =>
  let (init, counter) := s.bottom counter
  let (last, counter) := s.top counter
  let name := o.accumulatorPrefix ++ toString counter
  (loopText s.op name init last s.frame.finish, nextNumber o counter)

end OpenSum

namespace Progress

/-- Nothing written yet. -/
def start (counter : Nat) : Progress :=
  ⟨none, .empty, [], 0, counter⟩

variable (o : ExprOptions) (p : Progress)

/-- Changes the frame that text goes to: that of the innermost sum, or the root. -/
def modifyFrame (change : Frame → Frame) : Progress :=
  match p.sums with
  | [] => { p with root := change p.root }
  | s :: rest => { p with sums := { s with frame := change s.frame } :: rest }

/-- Adds a token. -/
def push (token : String) : Progress :=
  p.modifyFrame (·.push token)

/-- Adds an expression with its statements. -/
def add (e : Expression) : Progress :=
  p.modifyFrame (·.add e)

/-- Closes sums from the innermost on, each one's loop going into the frame around it. With
`balancedOnly`, a sum with open parens stays open and so do those around it. -/
def settle (balancedOnly : Bool) (incoming : Expression) (root : Frame) (counter : Nat) :
    List OpenSum → List OpenSum × Frame × Nat
  | [] => ([], root.add incoming, counter)
  | s :: rest =>
    let s := { s with frame := s.frame.add incoming }
    if balancedOnly && s.depth != 0 then (s :: rest, root, counter)
    else
      let (folded, counter) := s.fold o counter
      settle balancedOnly folded root counter rest

/-- Closes open sums. -/
def closeSums (balancedOnly : Bool) : Progress :=
  let (sums, root, counter) := settle o balancedOnly .blank p.root p.counter p.sums
  { p with sums, root, counter }

/-- Closes the parens open after bare function names. -/
def closeImplicit : Progress :=
  { p.push (repeated p.implicit ")") with implicit := 0 }

/-- Writes the sign of a product where two nodes stand side by side. -/
def separate (kind : Kind) : Progress :=
  if p.previous.any (impliesProduct · kind) then p.push "*" else p

/-- Opens a paren after a bare function name, or closes those that end here. -/
def adjustImplicit (kind : Kind) : Progress :=
  if p.previous.any Kind.isFunction && !kind.isLeftParen then
    { p.push "(" with implicit := p.implicit + 1 }
  else if kind.endsArgument then p.closeImplicit
  else p

/-- Whether the node before is the logarithm. -/
def afterLog : Bool :=
  p.previous.any fun kind => kind.isFunction && kind.text? == some "log"

/-- Turns the logarithm before into the call of a function of base and argument, with the base
written and the paren left open. -/
def takeBase (base : Compilation) : Progress :=
  let (base, counter) := base p.counter
  let p := (p.modifyFrame Frame.pop).add ⟨base.body, o.logBaseFunction ++ "(" ++ base.expr ++ ","⟩
  { p with implicit := p.implicit + 1, previous := none, counter }

/-- Raises the operand before to a power. -/
def raise (exponent : Compilation) : Progress :=
  let (power, counter) := exponent p.counter
  let p := p.modifyFrame fun frame =>
    (frame.wrapOperand (o.powerFunction ++ "(") (", (" ++ power.expr ++ "))")).pushBody power.body
  { p with counter }

/-- Counts a paren of the innermost sum's argument. -/
def countParen (kind : Kind) : Progress :=
  match p.sums with
  | [] => p
  | s :: rest =>
    if kind.isLeftParen then { p with sums := { s with depth := s.depth + 1 } :: rest }
    else if kind.isRightParen then { p with sums := { s with depth := s.depth - 1 } :: rest }
    else p

/-- Writes text of a node's own. -/
def emit (kind : Kind) (text : Compilation) : Progress :=
  let p := if kind.endsArgument then p.closeSums o true else p
  let (e, counter) := text p.counter
  ({ p.add e with counter }).countParen kind

/-- Does what a node means. -/
def apply (kind : Kind) : Meaning → Progress
  | .scripts (some exponent) _ => p.raise o exponent
  | .scripts none _ => p
  | .bang => p.modifyFrame fun frame => frame.wrapOperand (o.factorialFunction ++ "(") ")"
  | .big op top bottom => { p with sums := ⟨op, top, bottom, 0, .empty⟩ :: p.sums }
  | .piece text => p.emit o kind text

/-- Writes the next node. -/
def advance (kind : Kind) (meaning : Meaning) : Progress :=
  let p := p.separate kind
  match meaning, p.afterLog with
  | .scripts _ (some base), true => p.takeBase o base
  | _, _ => { (p.adjustImplicit kind).apply o kind meaning with previous := some kind }

/-- The finished expression, and the number of the next accumulator. -/
def finish : Expression × Nat :=
  let p := (p.push (repeated p.implicit ")")).closeSums o false
  let e := p.root.finish
  (if o.promotesIntegers then e.promoteIntegers else e, p.counter)

end Progress

end FormulaEditor
