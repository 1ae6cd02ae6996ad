import FormulaEditor.Formula.Basic
import FormulaEditor.Tex.Writer

/-!
# From a formula to text

A formula is written from its store. Elements come one after the other, each with the text of its
lists in braces; no notation is made of them on the way.
-/

namespace FormulaEditor

/-- The text of an element, given how to write its lists. -/
def Element.toText (write : ListId → List Char) : Element → List Char
  | atom italic => (Text.unitalicize italic).toList
  | binary op => Tex.writeBinary op
  | function name => "\\operatorname".toList ++ Tex.braced name.toList
  | paren char => Tex.writeParen char
  | frac numerator denominator =>
    "\\frac".toList ++ Tex.braced (write numerator) ++ Tex.braced (write denominator)
  | radical index radicand =>
    "\\sqrt".toList ++ (index.elim [] fun index => '[' :: (write index ++ [']'])) ++
      Tex.braced (write radicand)
  | scripts exponent subscript _ =>
    (subscript.elim [] fun subscript => '_' :: Tex.braced (write subscript)) ++
      exponent.elim [] fun exponent => '^' :: Tex.braced (write exponent)
  | wrapped wrap argument => '\\' :: wrap.name.toList ++ Tex.braced (write argument)
  | big op top bottom =>
    (Tex.bigWord op).toList ++ '_' :: Tex.braced (write bottom) ++ '^' :: Tex.braced (write top)

namespace Formula

/-- Writes elements after what is written so far, given how to write their lists. -/
def writeAfter (f : Formula) (write : ListId → List Char) (written : List Char) :
    List ElementId → List Char
  | [] => written
  | e :: es => f.writeAfter write (Tex.appendPiece written ((f.element e).toText write)) es

/-- Writes a list down to a given depth. -/
def writeWithin (f : Formula) : Nat → ListId → List Char
  | 0, _ => []
  | depth + 1, l => f.writeAfter (f.writeWithin depth) [] (f.elements l)

/-- Writes a list. Lists nest no deeper than there are lists. -/
def writeList (f : Formula) (l : ListId) : List Char :=
  f.writeWithin f.listSlots.size l

/-- Elements as formula text. -/
def elementsTex (f : Formula) (es : List ElementId) : String :=
  String.ofList (f.writeAfter f.writeList [] es)

/-- The whole formula as text. -/
def tex (f : Formula) : String :=
  String.ofList (f.writeList f.root)

end Formula

end FormulaEditor
