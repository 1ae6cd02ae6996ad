/-!
# Tokens of formula text
-/

namespace FormulaEditor.Tex

/-- The smallest unit of formula text. -/
inductive Token
  /-- A control sequence, without its backslash. -/
  | command (name : String)
  | beginGroup
  | endGroup
  | superscript
  | subscript
  | char (c : Char)
deriving DecidableEq, Repr, Inhabited

/-- The characters of a token as it stands in the text. -/
def Token.chars : Token → List Char
  | command name => '\\' :: name.toList
  | beginGroup => ['\x7b']
  | endGroup => ['\x7d']
  | superscript => ['^']
  | subscript => ['_']
  | char c => [c]

/-- A token as text. -/
def Token.text (token : Token) : String :=
  String.ofList token.chars

/-- A token and where it starts, counted in bytes of UTF-8. -/
structure Lexeme where
  token : Token
  offset : Nat
deriving DecidableEq, Repr

end FormulaEditor.Tex
