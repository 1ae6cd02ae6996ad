import FormulaEditor.Tex.Token
import FormulaEditor.Unicode.Class

/-!
# From text to tokens

The lexer is a machine that reads one character at a time. Blanks mean nothing and end up in no
token, and neither does a comment, which runs from `%` to the end of its line. A control sequence is
a backslash with all the ASCII letters after it, or with a single character of any other sort; a
backslash at the very end is a character of its own.
-/

namespace FormulaEditor.Tex

/-- What the lexer is in the middle of. -/
inductive LexState
  | between
  | comment
  /-- After a backslash at `start`. -/
  | escape (start : Nat)
  /-- In a control word begun at `start`, its letters so far last one first. -/
  | word (start : Nat) (letters : List Char)
deriving DecidableEq, Repr

namespace LexState

/-- The token of a control word. -/
def commandOf (letters : List Char) : Token :=
  .command (String.ofList letters.reverse)

/-- The token of a character that is none of backslash, percent sign and blank. -/
def simpleToken : Char → Token
  | '\x7b' => .beginGroup
  | '\x7d' => .endGroup
  | '^' => .superscript
  | '_' => .subscript
  | c => .char c

/-- Reads a character where no token is under way. -/
def start (offset : Nat) (c : Char) : List Lexeme × LexState :=
  if Unicode.isWhitespace c then ([], between)
  else if c = '%' then ([], comment)
  else if c = '\\' then ([], escape offset)
  else ([⟨simpleToken c, offset⟩], between)

/-- Reads the character at `offset`: the tokens it completes, and the state after it. -/
def step (offset : Nat) (c : Char) : LexState → List Lexeme × LexState
  | between => start offset c
  | comment => ([], if c = '\n' then between else comment)
  | escape backslash =>
    if c.isAlpha then ([], word backslash [c])
    else ([⟨commandOf [c], backslash⟩], between)
  | word backslash letters =>
    if c.isAlpha then ([], word backslash (c :: letters))
    else
      let (lexemes, state) := start offset c
      (⟨commandOf letters, backslash⟩ :: lexemes, state)

/-- The token that the end of the text completes. -/
def finish : LexState → List Lexeme
  | between => []
  | comment => []
  | escape backslash => [⟨.char '\\', backslash⟩]
  | word backslash letters => [⟨commandOf letters, backslash⟩]

end LexState

/-- The lexemes of a text from a given state and offset on. -/
def lexFrom (offset : Nat) : LexState → List Char → List Lexeme
  | state, [] => state.finish
  | state, c :: cs =>
    let (lexemes, next) := state.step offset c
    lexemes ++ lexFrom (offset + c.utf8Size) next cs

/-- The lexemes of a text, and the offset of its end. -/
structure Lexemes where
  items : List Lexeme
  finish : Nat
deriving DecidableEq, Repr

/-- The lexemes of a text. -/
def lex (text : String) : Lexemes :=
  ⟨lexFrom 0 .between text.toList, text.utf8ByteSize⟩

end FormulaEditor.Tex
