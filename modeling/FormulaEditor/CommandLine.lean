import FormulaEditor.Decimal.Display
import FormulaEditor.Expression.Compiler
import FormulaEditor.Node.Outline
import FormulaEditor.Row.Basic
import FormulaEditor.Tex.Writer
import FormulaEditor.Text.Json

/-!
# The command line

Four commands read a formula, from an argument or from standard input, and print it in one of its
forms.
-/

namespace FormulaEditor.CommandLine

/-- What is printed of a formula. -/
inductive Command
  /-- Its text in canonical form. -/
  | latex
  /-- Its expression, with the statements before it; in JSON on demand. -/
  | expr (json : Bool)
  /-- Its outline. -/
  | tree
  /-- Its row in a plot. -/
  | classify
deriving DecidableEq, Repr, Inhabited

/-- What the arguments ask for. -/
inductive Request
  /-- A command on the argument, or on standard input without one. -/
  | print (command : Command) (input : Option String)
  | version
  /-- Help, which is for a person to read. -/
  | help
deriving DecidableEq, Repr, Inhabited

/-- What a run of the program leaves behind. -/
structure Outcome where
  code : Nat
  out : String
  err : String
deriving DecidableEq, Repr, Inhabited

/-- A letter among options that begin with one dash. -/
inductive ShortOption
  | verbose
  | version
  | help
deriving DecidableEq, Repr

/-- The one-letter options known before a command. -/
def globalOption? : Char → Option ShortOption
  | 'v' => some .verbose
  | 'V' => some .version
  | 'h' => some .help
  | _ => none

/-- The one-letter options known after a command. -/
def commandOption? : Char → Option ShortOption
  | 'v' => some .verbose
  | 'h' => some .help
  | _ => none

/-- Reads a cluster of one-letter options. The first that asks for something of its own decides; a
letter that is unknown refuses the arguments. -/
def readCluster? (known : Char → Option ShortOption) :
    List Char → Option (Option Request)
  | [] => some none
  | c :: cs =>
    match known c with
    | none => none
    | some .verbose => readCluster? known cs
    | some .version => some (some .version)
    | some .help => some (some .help)

/-- The arguments of a command: its switches and at most one text. After two dashes everything is
text. -/
def readCommandArguments? (command : Command) (input : Option String) (textOnly : Bool) :
    List String → Option Request
  | [] => some (.print command input)
  | argument :: rest =>
    let cs := argument.toList
    if textOnly || cs.head? != some '-' || cs == ['-'] then
      if input.isSome then none else readCommandArguments? command (some argument) textOnly rest
    else if argument == "--" then readCommandArguments? command input true rest
    else if argument == "--verbose" then readCommandArguments? command input false rest
    else if argument == "--help" then some .help
    else if argument == "--json" then
      match command with
      | .expr false => readCommandArguments? (.expr true) input false rest
      | _ => none
    else if ['-', '-'].isPrefixOf cs then none
    else match readCluster? commandOption? cs.tail with
      | none => none
      | some (some request) => some request
      | some none => readCommandArguments? command input false rest

/-- A command by its name. -/
def command? : String → Option Command
  | "latex" => some .latex
  | "expr" => some (.expr false)
  | "tree" => some .tree
  | "classify" => some .classify
  | _ => none

/-- Whether arguments after the word for help make sense: none, or a single word that has help. -/
def asksForHelp : List String → Bool
  | [] => true
  | [topic] => topic == "help" || (command? topic).isSome
  | _ => false

/-- What the arguments ask for, unless they are refused. -/
def readArguments? : List String → Option Request
  | [] => none
  | argument :: rest =>
    if argument == "--version" then some .version
    else if argument == "--help" then some .help
    else if argument == "help" then
      if asksForHelp rest then some .help else none
    else if argument == "--verbose" then readArguments? rest
    else match command? argument with
      | some command => readCommandArguments? command none false rest
      | none =>
        match argument.toList with
        | '-' :: c :: cs =>
          match readCluster? globalOption? (c :: cs) with
          | none => none
          | some (some request) => some request
          | some none => readArguments? rest
        | _ => none

/-- An expression in JSON, one member a line. -/
def expressionJson (e : Expression) : String :=
  "\x7b\n  \"body\": " ++ Text.jsonString e.body ++ ",\n  \"expr\": " ++ Text.jsonString e.expr ++
    "\n\x7d\n"

/-- An expression below the statements it depends on. -/
def expressionLines (e : Expression) : String :=
  let body := String.ofList (Text.trim e.body.toList)
  (if body.isEmpty then "" else body ++ "\n") ++ e.expr ++ "\n"

/-- A row with its range and its declarations. -/
def rowLines (row : Row) : Except Misuse String := do
  let range ← row.range?
  let rangeLine := match range with
    | some (lower, upper) =>
      "range: " ++ Decimal.display lower ++ " .. " ++ Decimal.display upper ++ "\n"
    | none => ""
  let definition := row.definition 0
  let definitionLines :=
    if definition.isEmpty then "" else String.ofList (Text.trimEnd definition.toList) ++ "\n"
  .ok (row.kindName ++ "\n" ++ rangeLine ++ definitionLines)

/-- What a command prints of a formula. -/
def Command.print (command : Command) (nodes : List Node) : Except Misuse String :=
  let expression := (Node.compile .standard nodes 0).1
  match command with
  | latex => .ok (Tex.write nodes ++ "\n")
  | expr true => .ok (expressionJson expression)
  | expr false => .ok (expressionLines expression)
  | tree => .ok (Node.outline nodes)
  | classify => rowLines (Row.classify expression)

/-- The outcome of a failure that is explained. -/
def failure (message : String) : Outcome :=
  ⟨1, "", "Error: " ++ message ++ "\n"⟩

/-- Runs a command on the text of a formula. Blanks around the text are no part of it. -/
def Command.run (command : Command) (text : String) : Outcome :=
  match Tex.read (String.ofList (Text.trim text.toList)) with
  | .error error => failure error.message
  | .ok nodes =>
    match command.print nodes with
    | .ok out => ⟨0, out, ""⟩
    | .error _ => ⟨101, "", ""⟩

/-- Runs a command on bytes from a file or from standard input, which have to be text. -/
def Command.runBytes (command : Command) (bytes : ByteArray) : Outcome :=
  match String.fromUTF8? bytes with
  | some text => command.run text
  | none => failure "IO error: stream did not contain valid UTF-8"

/-- The outcome of a request. An argument that is the path of a file stands for its content. -/
def Request.run (file? : String → Option ByteArray) (stdin : ByteArray) : Request → Outcome
  | version => ⟨0, "formulate 0.1.0\n", ""⟩
  | help => ⟨0, "", ""⟩
  | print command (some argument) =>
    match file? argument with
    | some bytes => command.runBytes bytes
    | none => command.run argument
  | print command none => command.runBytes stdin

/-- The outcome of a run with the given arguments, standard input and files. -/
def run (file? : String → Option ByteArray) (stdin : ByteArray) (arguments : List String) :
    Outcome :=
  match readArguments? arguments with
  | some request => request.run file? stdin
  | none => ⟨2, "", ""⟩

end FormulaEditor.CommandLine
