import FormulaEditor.Proofs.Node.Depth
import FormulaEditor.Proofs.Text.Italic

/-!
# Notation spelled anew

A node may come back with its letters out of italics, and its lists put together anew at every depth.
How a node is put in front of a list is left open: either it stays a node of its own, or, as in
formula text, a subscript takes in the exponent behind it.
-/

namespace FormulaEditor.Node

section Respelled

variable (attach : Node → List Node → List Node)

mutual

/-- The node with its letters out of italics and its lists put together anew. -/
def respelled : Node → Node
  | .atom text => .atom (Text.unitalicize text)
  | .frac numerator denominator => .frac (respelledAll numerator) (respelledAll denominator)
  | .radical none radicand => .radical none (respelledAll radicand)
  | .radical (some index) radicand => .radical (some (respelledAll index)) (respelledAll radicand)
  | .scripts none none => .scripts none none
  | .scripts (some exponent) none => .scripts (some (respelledAll exponent)) none
  | .scripts none (some subscript) => .scripts none (some (respelledAll subscript))
  | .scripts (some exponent) (some subscript) =>
    .scripts (some (respelledAll exponent)) (some (respelledAll subscript))
  | .wrapped wrap argument => .wrapped wrap (respelledAll argument)
  | .big op top bottom => .big op (respelledAll top) (respelledAll bottom)
  | leaf => leaf

/-- The nodes with their letters out of italics, put together anew. -/
def respelledAll : List Node → List Node
  | [] => []
  | n :: ns => attach (respelled n) (respelledAll ns)

end

theorem lists_respelled (n : Node) :
    (n.respelled attach).lists = n.lists.map (respelledAll attach) := by
  rcases n with _ | _ | _ | _ | _ | ⟨_ | _, _⟩ | ⟨_ | _, _ | _⟩ | _ | _ <;> rfl

end Respelled

/-- The node with its letters out of italics, at every depth. -/
def upright (n : Node) : Node :=
  n.respelled List.cons

/-- The nodes with their letters out of italics, at every depth. -/
def uprightAll (ns : List Node) : List Node :=
  respelledAll List.cons ns

theorem uprightAll_eq_map (ns : List Node) : uprightAll ns = ns.map upright := by
  induction ns with
  | nil => rfl
  | cons n ns ih => exact congrArg (n.upright :: ·) ih

/-- Puts a node in front of a list; a subscript takes in an exponent that stands first. -/
def join : Node → List Node → List Node
  | .scripts none (some subscript), .scripts (some exponent) none :: ns =>
    .scripts (some exponent) (some subscript) :: ns
  | n, ns => n :: ns

/-- The node as its text has it, at every depth. -/
def settled (n : Node) : Node :=
  n.respelled join

/-- The nodes as their text has them: out of italics, subscripts together with the exponents behind
them, at every depth. -/
def settledAll (ns : List Node) : List Node :=
  respelledAll join ns

end FormulaEditor.Node
