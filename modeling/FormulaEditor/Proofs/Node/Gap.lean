import FormulaEditor.Proofs.Node.Depth

/-!
# Gaps in notation

A gap is a node without one of the lists it holds. Gaps inside each other lead from a formula to a
list in the depth of it. There is none for a subscript.
-/

namespace FormulaEditor.Node

/-- A node without one of the lists it holds. -/
inductive Gap
  | numerator (denominator : List Node)
  | denominator (numerator : List Node)
  | index (radicand : List Node)
  | radicand (index : Option (List Node))
  | exponent (subscript : Option (List Node))
  | argument (wrap : Wrap)
  | top (op : BigOp) (bottom : List Node)
  | bottom (op : BigOp) (top : List Node)

namespace Gap

/-- The node with a list put in. -/
def fill (inner : List Node) : Gap → Node
  | .numerator below => .frac inner below
  | .denominator above => .frac above inner
  | .index under => .radical (some inner) under
  | .radicand degree => .radical degree inner
  | .exponent sub => .scripts (some inner) sub
  | .argument wrap => .wrapped wrap inner
  | .top op lower => .big op inner lower
  | .bottom op upper => .big op upper inner

/-- What is put in has no effect on the kind of the node. -/
theorem kind_fill (gap : Gap) (inner inner' : List Node) :
    (gap.fill inner).kind = (gap.fill inner').kind := by
  cases gap <;> rfl

end Gap

/-- A list of nodes, one of which has a gap. -/
structure Around where
  before : List Node
  gap : Gap
  behind : List Node

namespace Around

/-- The list with another one put in. -/
def fill (around : Around) (inner : List Node) : List Node :=
  around.before ++ around.gap.fill inner :: around.behind

/-- The list inside lists around it, the outermost first. -/
def fillAll (outer : List Around) (inner : List Node) : List Node :=
  outer.foldr fill inner

end Around

end FormulaEditor.Node
