import FormulaEditor.Formula.Basic

/-!
# Notation into a formula and back

Planting allocates the slots of a node and its contents and leaves what is there as it is. A
snapshot reads an element back as a node. Letters go into italics on the way in and out of them on
the way back.
-/

namespace FormulaEditor

/-- The element as a node, given how to read its lists. -/
def Element.toNode (read : ListId → List Node) : Element → Node
  | atom italic => .atom (Text.unitalicize italic)
  | binary op => .binary op
  | function name => .function name
  | paren char => .paren char
  | frac numerator denominator => .frac (read numerator) (read denominator)
  | radical index radicand => .radical (index.map read) (read radicand)
  | scripts exponent subscript _ => .scripts (exponent.map read) (subscript.map read)
  | wrapped wrap argument => .wrapped wrap (read argument)
  | big op top bottom => .big op (read top) (read bottom)

namespace Formula

mutual

/-- Allocates a detached element for a node. Its own slot comes before those of its contents, which
refer to it. -/
def plant (f : Formula) : Node → Formula × ElementId
  | .atom text => f.allocElement (.atom (Text.italicize text))
  | .binary op => f.allocElement (.binary op)
  | .function name => f.allocElement (.function name)
  | .paren char => f.allocElement (.paren char)
  | .frac numerator denominator =>
    let (f, e) := f.allocElement default
    let (f, elements) := plantAll f numerator
    let (f, numerator) := f.adoptList e elements
    let (f, elements) := plantAll f denominator
    let (f, denominator) := f.adoptList e elements
    (f.setElement e (.frac numerator denominator), e)
  | .radical none radicand =>
    let (f, e) := f.allocElement default
    let (f, elements) := plantAll f radicand
    let (f, radicand) := f.adoptList e elements
    (f.setElement e (.radical none radicand), e)
  | .radical (some index) radicand =>
    let (f, e) := f.allocElement default
    let (f, elements) := plantAll f index
    let (f, index) := f.adoptList e elements
    let (f, elements) := plantAll f radicand
    let (f, radicand) := f.adoptList e elements
    (f.setElement e (.radical (some index) radicand), e)
  | .scripts none none => f.allocElement (.scripts none none none)
  | .scripts (some exponent) none =>
    let (f, e) := f.allocElement default
    let (f, elements) := plantAll f exponent
    let (f, exponent) := f.adoptList e elements
    (f.setElement e (.scripts (some exponent) none none), e)
  | .scripts none (some subscript) =>
    let (f, e) := f.allocElement default
    let (f, elements) := plantAll f subscript
    let (f, subscript) := f.adoptList e elements
    (f.setElement e (.scripts none (some subscript) none), e)
  | .scripts (some exponent) (some subscript) =>
    let (f, e) := f.allocElement default
    let (f, elements) := plantAll f exponent
    let (f, exponent) := f.adoptList e elements
    let (f, elements) := plantAll f subscript
    let (f, subscript) := f.adoptList e elements
    (f.setElement e (.scripts (some exponent) (some subscript) none), e)
  | .wrapped wrap argument =>
    let (f, e) := f.allocElement default
    let (f, elements) := plantAll f argument
    let (f, argument) := f.adoptList e elements
    (f.setElement e (.wrapped wrap argument), e)
  | .big op top bottom =>
    let (f, e) := f.allocElement default
    let (f, elements) := plantAll f top
    let (f, top) := f.adoptList e elements
    let (f, elements) := plantAll f bottom
    let (f, bottom) := f.adoptList e elements
    (f.setElement e (.big op top bottom), e)

/-- Allocates detached elements for nodes, in order. -/
def plantAll (f : Formula) : List Node → Formula × List ElementId
  | [] => (f, [])
  | node :: nodes =>
    let (f, e) := plant f node
    let (f, es) := plantAll f nodes
    (f, e :: es)

end

/-- A formula whose root list holds the nodes. -/
def ofNodes (nodes : List Node) : Formula :=
  let (f, elements) := empty.plantAll nodes
  (f.replaceRange f.root 0 0 elements).1

/-- Reads a list down to a given depth. -/
def snapshotWithin (f : Formula) : Nat → ListId → List Node
  | 0, _ => []
  | depth + 1, l => (f.elements l).map fun e => (f.element e).toNode (f.snapshotWithin depth)

/-- The nodes of a list. Lists nest no deeper than there are lists. -/
def snapshotList (f : Formula) (l : ListId) : List Node :=
  f.snapshotWithin f.listSlots.size l

/-- The node of an element. -/
def snapshot (f : Formula) (e : ElementId) : Node :=
  (f.element e).toNode f.snapshotList

/-- The nodes of the whole formula. -/
def nodes (f : Formula) : List Node :=
  f.snapshotList f.root

end Formula

end FormulaEditor
