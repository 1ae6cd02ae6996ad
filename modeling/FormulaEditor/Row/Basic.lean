import FormulaEditor.Decimal.Reading
import FormulaEditor.Expression.Frame
import FormulaEditor.Row.Slider
import FormulaEditor.Unicode.Class

/-!
# Plot rows

A plot keeps a row for every formula. What the row does hangs on the shape of the formula's
expression: a graph over one of four axes, a slider, a variable, or nothing.
-/

namespace FormulaEditor

/-- The axis whose value a graph gives. -/
inductive Axis
  | y
  | x
  | r
  | theta
deriving DecidableEq, Repr, Inhabited

namespace Axis

/-- The axis by its name. -/
def name : Axis → String
  | y => "y"
  | x => "x"
  | r => "r"
  | theta => "theta"

/-- The axis that a graph runs along. -/
def parameter : Axis → Axis
  | y => x
  | x => y
  | r => theta
  | theta => r

end Axis

/-- What a formula does in a plot. -/
inductive Row
  /-- A curve: the expression of one axis over the other. -/
  | graph (axis : Axis) (body expr : String)
  /-- A value to be dragged. -/
  | slider (name : String) (value : Float)
  /-- A computed value. -/
  | computed (name body expr : String)
  | empty

namespace Row

/-- Text on one line, and some of it. -/
def isLine (cs : List Char) : Bool :=
  !cs.isEmpty && !cs.contains '\n'

/-- What is assigned to a name: the text after the name, spaces and an equals sign. -/
def assigned? (name cs : List Char) : Option (List Char) :=
  if name.isPrefixOf cs then
    match (cs.drop name.length).dropWhile (· == ' ') with
    | '=' :: rest => some rest
    | _ => none
  else none

/-- A line assigned to a name. -/
def assignedLine? (name cs : List Char) : Option (List Char) :=
  (assigned? name cs).filter isLine

/-- The identifier that a text begins with. -/
def identifier? : List Char → Option (List Char)
  | [] => none
  | c :: cs => if c.isAlpha || c == '_' then some (c :: cs.takeWhile Unicode.isWordChar) else none

/-- The identifiers that axes have to themselves. -/
def isAxisName (name : List Char) : Bool :=
  name == ['x'] || name == ['y']

/-- Whether a text is a plain decimal number: digits with at most one point before some of them, and
maybe a sign. -/
def isNumber (cs : List Char) : Bool :=
  let (_, digits) := Decimal.takeSign cs
  match digits.dropWhile Char.isDigit with
  | [] => !digits.isEmpty
  | '.' :: fraction => !fraction.isEmpty && fraction.all Char.isDigit
  | _ => false

/-- A graph of y: an expression without an equals sign, maybe assigned to y. -/
def yGraph? (e : Expression) : Option Row :=
  let cs := e.expr.toList
  let line := ((assigned? ['y'] cs).filter (!·.isEmpty)).getD cs
  if isLine line && !line.contains '=' then some (graph .y e.body (String.ofList line)) else none

/-- A graph of another axis: what is assigned to it. -/
def axisGraph? (axis : Axis) (e : Expression) : Option Row :=
  (assignedLine? axis.name.toList e.expr.toList).map fun line =>
    graph axis e.body (String.ofList line)

/-- A slider: a number assigned to a name. -/
def slider? (e : Expression) : Option Row := do
  let name ← identifier? e.expr.toList
  let rest ← assigned? name e.expr.toList
  let number := rest.dropWhile (· == ' ')
  if isAxisName name || !isNumber number then none
  else
    let value ← Decimal.read? (String.ofList number)
    some (slider (String.ofList name) value)

/-- A variable: anything on one line assigned to a name. -/
def computed? (e : Expression) : Option Row := do
  let name ← identifier? e.expr.toList
  let rest ← assigned? name e.expr.toList
  if isAxisName name || rest.contains '\n' then none
  else some (computed (String.ofList name) e.body e.expr)

/-- The row of an expression: the first shape that it has. -/
def classify (e : Expression) : Row :=
  (yGraph? e <|> axisGraph? .x e <|> axisGraph? .r e <|> axisGraph? .theta e <|> slider? e <|>
    computed? e).getD empty

/-- The shape of a row by name. -/
def kindName : Row → String
  | graph .y _ _ => "Formula"
  | graph .x _ _ => "XFormula"
  | graph .r _ _ => "RFormula"
  | graph .theta _ _ => "ThetaFormula"
  | slider _ _ => "Slider"
  | computed _ _ _ => "Variable"
  | empty => "Empty"

/-- The name that a row defines. -/
def name? : Row → Option String
  | slider name _ => some name
  | computed name _ _ => some name
  | _ => none

/-- Whether the row is drawn as a curve. -/
def isGraph : Row → Bool
  | graph _ _ _ => true
  | _ => false

/-- The declarations of a row. Functions of different rows are told apart by their `id`. -/
def definition (row : Row) (id : Nat) : String :=
  match row with
  | graph axis body expr =>
    "float formula" ++ toString id ++ "(float " ++ axis.parameter.name ++ ") \x7b\n    " ++ body ++
      "\n    return " ++ expr ++ ";\n\x7d"
  | slider name _ => "uniform float " ++ name ++ ";\n"
  | computed name _ _ => "float " ++ name ++ " = 0.0;\n"
  | empty => ""

/-- The statements that compute a row's value; only variables have any. -/
def calculation : Row → String
  | computed _ body expr => body ++ "\n" ++ expr ++ ";\n"
  | _ => ""

/-- The range of a slider row. -/
def range? : Row → Except Misuse (Option (Float × Float))
  | slider _ value => (Slider.range value).map some
  | _ => .ok none

end Row

end FormulaEditor
