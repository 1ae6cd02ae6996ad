import FormulaEditor.Symbol.ScriptGlyph
import FormulaEditor.Tex.Command
import FormulaEditor.Tex.Lexer
import FormulaEditor.Tex.ParseError

/-!
# From tokens to notation

The readers below take lexemes from the front of a list and hand on the rest. Each is given the
offset of the end of the text, at which errors about a missing continuation are placed. Lists hold
lists, so the readers of notation are given the reader of lists, and `readList` ties the knot.
-/

namespace FormulaEditor.Tex

/-- What a reader comes to. A reader answers with what it read and the lexemes after it. -/
abbrev Attempt := Except ParseError

/-- A reader of a list up to an ending. -/
abbrev ListReader := Ending → List Lexeme → Attempt (List Node × List Lexeme)

/-- Where the lexemes start. -/
def offsetOf (finish : Nat) : List Lexeme → Nat
  | [] => finish
  | lexeme :: _ => lexeme.offset

/-- The failure to find what was expected: the text may end here, or go on with something else. -/
def missing {α : Type} (finish : Nat) (atEnd otherwise : Expectation) :
    List Lexeme → Attempt (α × List Lexeme)
  | [] => .error ⟨.unexpectedEnd atEnd, finish⟩
  | lexeme :: _ => .error ⟨.expected otherwise, lexeme.offset⟩

/-- The characters that are symbols by themselves. -/
def isAtomChar (c : Char) : Bool :=
  Unicode.isAlphanumeric c || c == '.' || c == '!' || c == '\'' || c == '′'

/-- The node for a plain character behind a script glyph. -/
def plainNode (c : Char) : Node :=
  match BinaryOp.ofChar? c with
  | some op => .binary op
  | none => if c == '(' || c == ')' then .paren c else .ofChar c

/-- The longest run of glyphs from one table, in plain characters. -/
def takeGlyphs (table : Char → Option Char) : List Lexeme → List Char × List Lexeme
  | lexemes@(⟨.char c, _⟩ :: rest) =>
    match table c with
    | some p =>
      let (run, rest) := takeGlyphs table rest
      (p :: run, rest)
    | none => ([], lexemes)
  | lexemes => ([], lexemes)

/-- The script that a run of glyphs makes; an empty run makes none. -/
def glyphScript (run : List Char) : Option (List Node) :=
  if run.isEmpty then none else some (run.map plainNode)

/-- Raised and lowered glyphs in either order, one run of each. -/
def readScriptGlyphs (lexemes : List Lexeme) : Node × List Lexeme :=
  let (raised, rest) := takeGlyphs Symbol.superscript? lexemes
  let (lowered, rest) := takeGlyphs Symbol.subscript? rest
  if raised.isEmpty then
    let (raised, rest) := takeGlyphs Symbol.superscript? rest
    (.scripts (glyphScript raised) (glyphScript lowered), rest)
  else (.scripts (glyphScript raised) (glyphScript lowered), rest)

section Notation

variable (finish : Nat) (readList : ListReader)

/-- A list in braces. -/
def readGroup : List Lexeme → Attempt (List Node × List Lexeme)
  | ⟨.beginGroup, _⟩ :: rest => readList .group rest
  | lexemes => missing finish .openBrace .openBrace lexemes

/-- The argument of a script: a list in braces, or a single symbol. -/
def readScriptArgument (lexemes : List Lexeme) : Attempt (List Node × List Lexeme) :=
  let none := missing finish .scriptArgument .scriptArgument lexemes
  match lexemes with
  | ⟨.beginGroup, _⟩ :: rest => readList .group rest
  | ⟨.char c, _⟩ :: rest => if isAtomChar c then .ok ([.ofChar c], rest) else none
  | ⟨.command name, _⟩ :: rest =>
    (Symbol.greekMacro? name).elim none fun letter => .ok ([.ofChar letter], rest)
  | _ => none

/-- A script that begins with the given token, if one follows. -/
def readScript? (mark : Token) : List Lexeme → Attempt (Option (List Node) × List Lexeme)
  | [] => .ok (none, [])
  | lexeme :: rest =>
    if lexeme.token = mark then do
      let (argument, rest) ← readScriptArgument finish readList rest
      .ok (some argument, rest)
    else .ok (none, lexeme :: rest)

/-- An exponent and a subscript in either order, each at most once. -/
def readScriptPair (lexemes : List Lexeme) :
    Attempt ((Option (List Node) × Option (List Node)) × List Lexeme) := do
  let (exponent, rest) ← readScript? finish readList .superscript lexemes
  let (subscript, rest) ← readScript? finish readList .subscript rest
  if exponent.isSome then .ok ((exponent, subscript), rest)
  else
    let (exponent, rest) ← readScript? finish readList .superscript rest
    .ok ((exponent, subscript), rest)

/-- The letters of a function name and the brace after them. -/
def readNameLetters : List Lexeme → Attempt (List Char × List Lexeme)
  | [] => .error ⟨.unexpectedEnd .closeBrace, finish⟩
  | ⟨.endGroup, _⟩ :: rest => .ok ([], rest)
  | ⟨.char c, offset⟩ :: rest =>
    if Unicode.isAlphanumeric c then do
      let (letters, rest) ← readNameLetters rest
      .ok (c :: letters, rest)
    else .error ⟨.unexpectedToken (.char c), offset⟩
  | lexeme :: _ => .error ⟨.unexpectedToken lexeme.token, lexeme.offset⟩

/-- A function name in braces. -/
def readOperatorName : List Lexeme → Attempt (Node × List Lexeme)
  | ⟨.beginGroup, _⟩ :: rest => do
    let (letters, rest) ← readNameLetters finish rest
    if letters.isEmpty then .error ⟨.emptyOperatorName, offsetOf finish rest⟩
    else .ok (.function (String.ofList letters), rest)
  | lexemes => .error ⟨.expected .openBrace, offsetOf finish lexemes⟩

/-- The delimiter after a sizing hint that opens. -/
def readLeft (lexemes : List Lexeme) : Attempt (Node × List Lexeme) :=
  let none := missing finish .delimiter .delimiterAfterLeft lexemes
  match lexemes with
  | ⟨.char c, _⟩ :: rest =>
    if c == '(' || c == '[' then .ok (.paren c, rest)
    else if c == '|' then do
      let (argument, rest) ← readList .sizedBar rest
      .ok (.wrapped .abs argument, rest)
    else none
  | ⟨.command name, _⟩ :: rest =>
    match Command.ofName? name with
    | some (.paren '\x7b') => .ok (.paren '\x7b', rest)
    | some (.corner corner) => do
      let (argument, rest) ← readList (.corner corner) rest
      .ok (.wrapped corner.wrap argument, rest)
    | _ => none
  | _ => none

/-- The delimiter after a sizing hint that closes no list. -/
def readRight (lexemes : List Lexeme) : Attempt (Node × List Lexeme) :=
  let none := missing finish .delimiter .delimiterAfterRight lexemes
  match lexemes with
  | ⟨.char c, _⟩ :: rest => if c == ')' || c == ']' then .ok (.paren c, rest) else none
  | ⟨.command name, _⟩ :: rest => if name = "\x7d" then .ok (.paren '\x7d', rest) else none
  | _ => none

/-- A root, after its control word. -/
def readRadical : List Lexeme → Attempt (Node × List Lexeme)
  | ⟨.char '[', _⟩ :: rest => do
    let (index, rest) ← readList .bracket rest
    let (radicand, rest) ← readGroup finish readList rest
    .ok (.radical (some index) radicand, rest)
  | lexemes => do
    let (radicand, rest) ← readGroup finish readList lexemes
    .ok (.radical none radicand, rest)

/-- The notation of a command, given the lexemes after it. -/
def readCommand (rest : List Lexeme) : Command → Attempt (Option Node × List Lexeme)
  | .frac => do
    let (numerator, rest) ← readGroup finish readList rest
    let (denominator, rest) ← readGroup finish readList rest
    .ok (some (.frac numerator denominator), rest)
  | .sqrt => do
    let (node, rest) ← readRadical finish readList rest
    .ok (some node, rest)
  | .wrap wrap => do
    let (argument, rest) ← readGroup finish readList rest
    .ok (some (.wrapped wrap argument), rest)
  | .corner corner => do
    let (argument, rest) ← readList (.corner corner) rest
    .ok (some (.wrapped corner.wrap argument), rest)
  | .operatorName => do
    let (node, rest) ← readOperatorName finish rest
    .ok (some node, rest)
  | .times => .ok (some (.binary .times), rest)
  | .paren c => .ok (some (.paren c), rest)
  | .big op => do
    let ((top, bottom), rest) ← readScriptPair finish readList rest
    .ok (some (.big op (top.getD []) (bottom.getD [])), rest)
  | .left => do
    let (node, rest) ← readLeft finish readList rest
    .ok (some node, rest)
  | .right => do
    let (node, rest) ← readRight finish rest
    .ok (some node, rest)
  | .spacing => .ok (none, rest)
  | .letter c => .ok (some (.ofChar c), rest)
  | .function name => .ok (some (.function name), rest)

/-- The notation that begins with a character which is no script glyph. -/
def readChar (c : Char) (offset : Nat) (rest : List Lexeme) : Attempt (Node × List Lexeme) :=
  if c == '|' then do
    let (argument, rest) ← readList .bar rest
    .ok (.wrapped .abs argument, rest)
  else if c == '(' || c == ')' || c == '[' || c == ']' then .ok (.paren c, rest)
  else match BinaryOp.ofChar? c with
    | some op => .ok (.binary op, rest)
    | none =>
      if isAtomChar c then .ok (.ofChar c, rest) else .error ⟨.unexpectedChar c, offset⟩

/-- The next notation of a list. A group adds its nodes to the list, and spacing adds none. -/
def readItem (ending : Ending) : List Lexeme → Attempt (List Node × List Lexeme)
  | [] => .error ⟨.unexpectedEnd (.ending ending), finish⟩
  | ⟨.endGroup, offset⟩ :: _ => .error ⟨.unexpectedToken .endGroup, offset⟩
  | ⟨.beginGroup, _⟩ :: rest => readList .group rest
  | lexemes@(⟨.superscript, _⟩ :: _) | lexemes@(⟨.subscript, _⟩ :: _) => do
    let ((exponent, subscript), rest) ← readScriptPair finish readList lexemes
    .ok ([.scripts exponent subscript], rest)
  | lexemes@(⟨.char c, offset⟩ :: rest) =>
    if (Symbol.superscript? c).isSome || (Symbol.subscript? c).isSome then
      let (node, rest) := readScriptGlyphs lexemes
      .ok ([node], rest)
    else do
      let (node, rest) ← readChar readList c offset rest
      .ok ([node], rest)
  | ⟨.command name, offset⟩ :: rest =>
    match Command.ofName? name with
    | some command => do
      let (node, rest) ← readCommand finish readList rest command
      .ok (node.toList, rest)
    | none => .error ⟨.unknownCommand name, offset⟩

end Notation

/-- How many brackets a list has open after its next lexeme. -/
def bracketsAfter (openBrackets : Nat) : List Lexeme → Nat
  | ⟨.char '[', _⟩ :: _ => openBrackets + 1
  | ⟨.char ']', _⟩ :: _ => openBrackets - 1
  | _ => openBrackets

/-- Reads a list up to its ending. Every item takes a lexeme at least, so a list needs no more
`fuel` than there are lexemes before its ending, and one for the ending. -/
def readListWith (finish : Nat) :
    Nat → Ending → Nat → List Lexeme → Attempt (List Node × List Lexeme)
  | 0, ending, _, _ => .error ⟨.unexpectedEnd (.ending ending), finish⟩
  | fuel + 1, ending, openBrackets, lexemes =>
    match ending.close? openBrackets lexemes with
    | some rest => .ok ([], rest)
    | none => do
      let readInner : ListReader := fun inner => readListWith finish fuel inner 0
      let (nodes, rest) ← readItem finish readInner ending lexemes
      let (more, rest) ←
        readListWith finish fuel ending (bracketsAfter openBrackets lexemes) rest
      .ok (nodes ++ more, rest)

/-- Reads lexemes as one list. -/
def readLexemes (lexemes : Lexemes) : Except ParseError (List Node) := do
  let (nodes, _) ←
    readListWith lexemes.finish (lexemes.items.length + 1) .input 0 lexemes.items
  .ok nodes

/-- Reads formula text. -/
def read (text : String) : Except ParseError (List Node) :=
  readLexemes (lex text)

end FormulaEditor.Tex
