import FormulaEditor.Node.Basic
import FormulaEditor.Tex.Ending

/-!
# Control sequences and their meaning
-/

namespace FormulaEditor.Tex

/-- The meaning of a control sequence. -/
inductive Command
  | frac
  | sqrt
  | wrap (wrap : Wrap)
  /-- The first of a pair of control words around an argument. -/
  | corner (corner : Corner)
  | operatorName
  | times
  | paren (char : Char)
  | big (op : BigOp)
  /-- Sizing hint before an opening delimiter. -/
  | left
  /-- Sizing hint before a closing delimiter. -/
  | right
  /-- White space for the eye only. -/
  | spacing
  | letter (c : Char)
  | function (name : String)
deriving DecidableEq, Repr, Inhabited

namespace Command

/-- The control sequences that are neither letters nor functions. -/
def table : List (String × Command) :=
  [("frac", frac), ("dfrac", frac), ("tfrac", frac), ("sqrt", sqrt),
    ("abs", wrap .abs), ("floor", wrap .floor), ("ceil", wrap .ceil),
    ("lfloor", corner .floor), ("lceil", corner .ceil), ("operatorname", operatorName),
    ("times", times), ("cdot", times), ("\x7b", paren '\x7b'), ("\x7d", paren '\x7d'),
    ("sum", big .sum), ("prod", big .product), ("left", left), ("right", right),
    (",", spacing), (";", spacing), (":", spacing), ("!", spacing), (" ", spacing),
    ("quad", spacing), ("qquad", spacing)]

/-- The meaning of a name, if it has one. -/
def ofName? (name : String) : Option Command :=
  table.lookup name <|>
    (Symbol.greekMacro? name).map letter <|>
    if Symbol.isFunction name then some (function name) else none

end Command

end FormulaEditor.Tex
