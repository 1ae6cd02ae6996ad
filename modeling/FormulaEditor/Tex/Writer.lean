import FormulaEditor.Tex.Reader

/-!
# From notation to text

Every formula is written in one way: italic letters as plain ones, Greek letters as themselves,
function names by `\operatorname`, multiplication as `\times`, subscripts before exponents, and
braces around every argument.
-/

namespace FormulaEditor.Tex

/-- The control word for multiplication. -/
def timesWord : List Char :=
  ['\\', 't', 'i', 'm', 'e', 's']

/-- Puts a piece after what is written so far. A space keeps a letter apart from the control word
for multiplication, which would otherwise take it in. -/
def appendPiece (written piece : List Char) : List Char :=
  if timesWord.isSuffixOf written && piece.head?.any Char.isAlpha then written ++ ' ' :: piece
  else written ++ piece

/-- A binary operator as text. -/
def writeBinary : BinaryOp → List Char
  | .plus => ['+']
  | .minus => ['-']
  | .times => timesWord
  | .equals => ['=']

/-- A paren as text; braces are escaped. -/
def writeParen (c : Char) : List Char :=
  if c == '\x7b' || c == '\x7d' then ['\\', c] else [c]

/-- The control word of an operator with limits. -/
def bigWord : BigOp → String
  | .sum => "\\sum"
  | .product => "\\prod"

/-- Text in braces. -/
def braced (cs : List Char) : List Char :=
  '\x7b' :: (cs ++ ['\x7d'])

mutual

/-- Writes a list after what is written so far. -/
def writeAfter (written : List Char) : List Node → List Char
  | [] => written
  | node :: nodes => writeAfter (appendPiece written (writeNode node)) nodes

/-- Writes a node. -/
def writeNode : Node → List Char
  | .atom text => (Text.unitalicize text).toList
  | .binary op => writeBinary op
  | .function name => "\\operatorname".toList ++ braced name.toList
  | .paren c => writeParen c
  | .frac numerator denominator =>
    "\\frac".toList ++ braced (writeAfter [] numerator) ++ braced (writeAfter [] denominator)
  | .radical none radicand => "\\sqrt".toList ++ braced (writeAfter [] radicand)
  | .radical (some index) radicand =>
    "\\sqrt".toList ++ '[' :: (writeAfter [] index ++ ']' :: braced (writeAfter [] radicand))
  | .scripts none none => []
  | .scripts none (some subscript) => '_' :: braced (writeAfter [] subscript)
  | .scripts (some exponent) none => '^' :: braced (writeAfter [] exponent)
  | .scripts (some exponent) (some subscript) =>
    '_' :: braced (writeAfter [] subscript) ++ '^' :: braced (writeAfter [] exponent)
  | .wrapped wrap argument => '\\' :: wrap.name.toList ++ braced (writeAfter [] argument)
  | .big op top bottom =>
    (bigWord op).toList ++ '_' :: braced (writeAfter [] bottom) ++
      '^' :: braced (writeAfter [] top)

end

/-- A list of nodes as formula text. -/
def write (nodes : List Node) : String :=
  String.ofList (writeAfter [] nodes)

/-- Formula text in its canonical form. -/
def normalize (text : String) : Except ParseError String := do
  let nodes ← read text
  .ok (write nodes)

end FormulaEditor.Tex
