import FormulaEditor.Tex.Ending
import FormulaEditor.Text.Quoted

/-!
# Errors of formula text
-/

namespace FormulaEditor.Tex

/-- What a reader was looking for. -/
inductive Expectation
  | ending (ending : Ending)
  | openBrace
  | closeBrace
  | scriptArgument
  | delimiter
  | delimiterAfterLeft
  | delimiterAfterRight
deriving DecidableEq, Repr

/-- The expectation as messages name it. -/
def Expectation.describe : Expectation → String
  | ending e => e.describe
  | openBrace => "'\x7b'"
  | closeBrace => "'\x7d'"
  | scriptArgument => "script argument"
  | delimiter => "delimiter"
  | delimiterAfterLeft => "delimiter after \\left"
  | delimiterAfterRight => "delimiter after \\right"

/-- What is wrong with a text. -/
inductive Fault
  /-- A character that begins no notation. -/
  | unexpectedChar (c : Char)
  /-- A token out of place. -/
  | unexpectedToken (token : Token)
  /-- A control sequence without meaning here. -/
  | unknownCommand (name : String)
  /-- Something else stands where this was needed. -/
  | expected (what : Expectation)
  /-- The text ends where this was needed. -/
  | unexpectedEnd (what : Expectation)
  /-- A function without a name. -/
  | emptyOperatorName
deriving DecidableEq, Repr

/-- The fault in words. -/
def Fault.describe : Fault → String
  | unexpectedChar c => "unexpected character " ++ Text.quoteChar c
  | unexpectedToken token => "unexpected token '" ++ token.text ++ "'"
  | unknownCommand name => "unknown command \\" ++ name
  | expected what => "expected " ++ what.describe
  | unexpectedEnd what => "unexpected end of input, expected " ++ what.describe
  | emptyOperatorName => "empty operator name"

/-- A fault and the offset at which it shows. -/
structure ParseError where
  fault : Fault
  offset : Nat
deriving DecidableEq, Repr

/-- The error in words. -/
def ParseError.message (error : ParseError) : String :=
  "Parse error at offset " ++ toString error.offset ++ ": " ++ error.fault.describe

end FormulaEditor.Tex
