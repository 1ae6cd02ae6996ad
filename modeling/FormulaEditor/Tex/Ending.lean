import FormulaEditor.Node.Basic
import FormulaEditor.Tex.Token

/-!
# How a list in formula text ends
-/

namespace FormulaEditor.Tex

/-- A delimiter pair that has control words of its own. -/
inductive Corner
  | floor
  | ceil
deriving DecidableEq, Repr, Inhabited

/-- The control word that closes a pair. -/
def Corner.closer : Corner → String
  | floor => "rfloor"
  | ceil => "rceil"

/-- The notation that a pair encloses. -/
def Corner.wrap : Corner → Wrap
  | floor => .floor
  | ceil => .ceil

/-- What closes the list being read. -/
inductive Ending
  /-- The end of the text. -/
  | input
  /-- A closing brace. -/
  | group
  /-- A closing bracket that the list itself did not open. -/
  | bracket
  /-- A bar. -/
  | bar
  /-- A bar with a sizing hint. -/
  | sizedBar
  /-- The second of a pair of control words, with or without a sizing hint. -/
  | corner (corner : Corner)
deriving DecidableEq, Repr, Inhabited

namespace Ending

/-- The ending as messages name it. -/
def describe : Ending → String
  | input => "end of input"
  | group => "'\x7d'"
  | bracket => "']'"
  | bar => "'|'"
  | sizedBar => "'\\right|'"
  | corner .floor => "'\\rfloor'"
  | corner .ceil => "'\\rceil'"

/-- What follows the ending, if the list ends here. A bracket closes the list only once every
bracket that the list opened is closed. -/
def close? (ending : Ending) (openBrackets : Nat) (lexemes : List Lexeme) : Option (List Lexeme) :=
  match ending, lexemes with
  | input, [] => some []
  | group, ⟨.endGroup, _⟩ :: rest => some rest
  | bracket, ⟨.char ']', _⟩ :: rest => if openBrackets = 0 then some rest else none
  | bar, ⟨.char '|', _⟩ :: rest => some rest
  | sizedBar, ⟨.command "right", _⟩ :: ⟨.char '|', _⟩ :: rest => some rest
  | corner c, ⟨.command name, _⟩ :: rest =>
    if name = c.closer then some rest
    else match name, rest with
      | "right", ⟨.command name, _⟩ :: rest => if name = c.closer then some rest else none
      | _, _ => none
  | _, _ => none

end Ending

end FormulaEditor.Tex
