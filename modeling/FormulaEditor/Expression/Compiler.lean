import FormulaEditor.Expression.Progress
import FormulaEditor.Formula.Plant
import FormulaEditor.Tex.Reader

/-!
# From notation to expressions
-/

namespace FormulaEditor

namespace Node

/-- The text of a symbol: Greek letters go by their names. -/
def symbolText (text : String) : String :=
  let text := Text.unitalicize text
  match text.toList with
  | [c] => (Symbol.greekIdentifier? c).getD text
  | _ => text

/-- A fraction as a quotient. -/
def quotient (numerator denominator : Compilation) : Compilation := fun counter =>
  let (n, counter) := numerator counter
  let (d, counter) := denominator counter
  (⟨n.body ++ d.body, "(" ++ n.expr ++ ")/(" ++ d.expr ++ ")"⟩, counter)

/-- A root without an index. -/
def squareRoot (radicand : Compilation) : Compilation := fun counter =>
  let (r, counter) := radicand counter
  (⟨r.body, "sqrt(" ++ r.expr ++ ")"⟩, counter)

/-- A root with an index, as a power. -/
def indexedRoot (index radicand : Compilation) : Compilation := fun counter =>
  let (r, counter) := radicand counter
  let (i, counter) := index counter
  (⟨r.body ++ i.body, "pow(" ++ r.expr ++ ", 1.0/(" ++ i.expr ++ "))"⟩, counter)

/-- A function of one argument. -/
def call (name : String) (argument : Compilation) : Compilation := fun counter =>
  let (a, counter) := argument counter
  (⟨a.body, name ++ "(" ++ a.expr ++ ")"⟩, counter)

/-- Text that is known beforehand. -/
def literal (text : String) : Meaning :=
  .piece fun counter => (.pure text, counter)

mutual

/-- Writes nodes one after the other. -/
def writeAll (o : ExprOptions) : List Node → Progress → Progress
  | [], p => p
  | node :: nodes, p => writeAll o nodes (p.advance o node.kind (meaning o node))

/-- What a node means, the lists it holds being expressions of their own. -/
def meaning (o : ExprOptions) : Node → Meaning
  | atom text =>
    if Text.unitalicize text == "!" then .bang else literal (symbolText text)
  | binary op => literal op.symbol
  | function name => literal name
  | paren c => literal (if isLeftParen c then "(" else ")")
  | frac numerator denominator =>
    .piece (quotient (fun n => (writeAll o numerator (.start n)).finish o)
      (fun n => (writeAll o denominator (.start n)).finish o))
  | radical none radicand =>
    .piece (squareRoot fun n => (writeAll o radicand (.start n)).finish o)
  | radical (some index) radicand =>
    .piece (indexedRoot (fun n => (writeAll o index (.start n)).finish o)
      (fun n => (writeAll o radicand (.start n)).finish o))
  | scripts none none => .scripts none none
  | scripts (some exponent) none =>
    .scripts (some fun n => (writeAll o exponent (.start n)).finish o) none
  | scripts none (some subscript) =>
    .scripts none (some fun n => (writeAll o subscript (.start n)).finish o)
  | scripts (some exponent) (some subscript) =>
    .scripts (some fun n => (writeAll o exponent (.start n)).finish o)
      (some fun n => (writeAll o subscript (.start n)).finish o)
  | wrapped wrap argument =>
    .piece (call wrap.name fun n => (writeAll o argument (.start n)).finish o)
  | big op top bottom =>
    .big op (fun n => (writeAll o top (.start n)).finish o)
      (fun n => (writeAll o bottom (.start n)).finish o)

end

/-- A list of nodes as an expression. -/
def compile (o : ExprOptions) (nodes : List Node) : Compilation := fun counter =>
  (writeAll o nodes (.start counter)).finish o

end Node

/-- Compiles one formula after another, numbering accumulators across all of them. -/
structure Compiler where
  options : ExprOptions
  counter : Nat
deriving DecidableEq, Repr, Inhabited

namespace Compiler

/-- A compiler that has compiled nothing. -/
def new (options : ExprOptions) : Compiler :=
  ⟨options, 0⟩

/-- Compiles a list of nodes. -/
def compile (c : Compiler) (nodes : List Node) : Expression × Compiler :=
  let (e, counter) := Node.compile c.options nodes c.counter
  (e, { c with counter })

/-- The compiler numbering from zero again. -/
def resetCounter (c : Compiler) : Compiler :=
  { c with counter := 0 }

end Compiler

/-- Formula text as an expression under the standard options. -/
def Expression.ofTex (text : String) : Except Tex.ParseError Expression := do
  let nodes ← Tex.read text
  .ok (Node.compile .standard nodes 0).1

end FormulaEditor
