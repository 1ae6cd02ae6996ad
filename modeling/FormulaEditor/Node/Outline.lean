import FormulaEditor.Node.Basic
import FormulaEditor.Text.Quoted

/-!
# Outlines

A formula shown as indented lines: one for each node, and below a node that holds lists, each list
under its number.
-/

namespace FormulaEditor

/-- A kind with the text or sign that tells it from others of its name. -/
def Kind.label : Kind → String
  | kind@(.atom text) => kind.name ++ " " ++ Text.quoteString text
  | kind@(.binary op) => kind.name ++ " " ++ Text.quoteChar op.glyph
  | kind@(.function name) => kind.name ++ " " ++ Text.quoteString name
  | kind@(.paren char) => kind.name ++ " " ++ Text.quoteChar char
  | kind@(.big op) => kind.name ++ " " ++ Text.quoteChar op.glyph
  | kind => kind.name

namespace Node

/-- A line of an outline, two spaces further in at each depth. -/
def outlineLine (depth : Nat) (text : String) : String :=
  String.ofList (List.replicate (2 * depth) ' ') ++ text ++ "\n"

/-- The heading over a list, which numbers it. -/
def outlineHeading (depth : Nat) (number : Nat) : String :=
  outlineLine depth ("[" ++ toString number ++ "]")

mutual

/-- A list's nodes, one below the other. -/
def outlineList (depth : Nat) : List Node → String
  | [] => ""
  | node :: nodes => outlineNode depth node ++ outlineList depth nodes

/-- A node's line and, further in, the lists it holds. -/
def outlineNode (depth : Nat) : Node → String
  | node@(frac numerator denominator) =>
    outlineLine depth node.kind.label ++
      outlineHeading (depth + 1) 0 ++ outlineList (depth + 2) numerator ++
      outlineHeading (depth + 1) 1 ++ outlineList (depth + 2) denominator
  | node@(radical none radicand) =>
    outlineLine depth node.kind.label ++
      outlineHeading (depth + 1) 0 ++ outlineList (depth + 2) radicand
  | node@(radical (some index) radicand) =>
    outlineLine depth node.kind.label ++
      outlineHeading (depth + 1) 0 ++ outlineList (depth + 2) index ++
      outlineHeading (depth + 1) 1 ++ outlineList (depth + 2) radicand
  | node@(scripts (some exponent) (some subscript)) =>
    outlineLine depth node.kind.label ++
      outlineHeading (depth + 1) 0 ++ outlineList (depth + 2) exponent ++
      outlineHeading (depth + 1) 1 ++ outlineList (depth + 2) subscript
  | node@(scripts (some half) none) | node@(scripts none (some half)) =>
    outlineLine depth node.kind.label ++
      outlineHeading (depth + 1) 0 ++ outlineList (depth + 2) half
  | node@(wrapped _ argument) =>
    outlineLine depth node.kind.label ++
      outlineHeading (depth + 1) 0 ++ outlineList (depth + 2) argument
  | node@(big _ top bottom) =>
    outlineLine depth node.kind.label ++
      outlineHeading (depth + 1) 0 ++ outlineList (depth + 2) top ++
      outlineHeading (depth + 1) 1 ++ outlineList (depth + 2) bottom
  | node => outlineLine depth node.kind.label

end

/-- The outline of a whole formula. -/
def outline (nodes : List Node) : String :=
  outlineList 0 nodes

end Node

end FormulaEditor
