import FormulaEditor.Symbol.Greek

/-!
# Special words

A run of typed letters is read again after every key. The words below stand for something else than
their letters: Greek letters, functions set upright, and constructs such as roots and sums. Reading
takes, at each point, the first word of the list that fits, and a single character where none does.
-/

namespace FormulaEditor.Symbol

/-- Functions, in the order in which typed words are tried. None begins with an earlier one. -/
def functions : List String :=
  ["asech", "acsch", "acosech", "acoth", "sech", "csch", "cosech", "coth", "asec", "acsc",
    "acosec", "acot", "arcsec", "arccsc", "arccosec", "arccot", "sec", "csc", "cosec", "cot",
    "asinh", "acosh", "atanh", "sinh", "cosh", "tanh", "asin", "acos", "atan", "arcsin",
    "arccos", "arctan", "sinc", "sin", "cos", "tan", "exp", "log", "ln", "lg", "sign", "sgn"]

/-- Words for notation that holds other notation. -/
def constructs : List String :=
  ["sum", "prod", "sqrt", "nthroot", "floor", "ceil"]

/-- Every special word, in the order of trial. -/
def words : List String :=
  greekLetters.map Prod.fst ++ functions ++ constructs

/-- Whether a name is one of the functions. -/
def isFunction (name : String) : Bool :=
  functions.contains name

/-- Whether `psi` after this character may be the middle of `epsilon` or `upsilon`. -/
def opensPsi (c : Char) : Bool :=
  c == 'e' || c == 'u' || c == 'E' || c == 'U'

/-- How many characters the next token of a text takes, given the character before it. -/
def tokenLength (before : Option Char) (cs : List Char) : Nat :=
  match words.find? fun w => w.toList.isPrefixOf cs with
  | none => 1
  | some w => if w == "psi" && before.any opensPsi then 1 else w.length

/-- The tokens of a text once `skip` characters, which the last token holds, are passed over. -/
def splitWordsFrom (before : Option Char) : Nat → List Char → List (List Char)
  | _, [] => []
  | skip + 1, c :: cs => splitWordsFrom (some c) skip cs
  | 0, c :: cs =>
    let size := tokenLength before (c :: cs)
    (c :: cs).take size :: splitWordsFrom (some c) (size - 1) cs

/-- A text cut into special words and single characters. -/
def splitWords (text : String) : List String :=
  (splitWordsFrom none 0 text.toList).map String.ofList

end FormulaEditor.Symbol
