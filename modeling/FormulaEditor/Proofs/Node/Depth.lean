import FormulaEditor.Node.Basic

/-!
# Notation at every depth

Nodes hold lists of nodes, so whatever is said of all lists of a formula is said along its nesting.
`EveryList` says it of a list and of all lists inside it.
-/

namespace FormulaEditor

theorem isParen_iff {c : Char} : isParen c ↔
    c = '(' ∨ c = '[' ∨ c = '\x7b' ∨ c = ')' ∨ c = ']' ∨ c = '\x7d' := by
  simp [isParen, isLeftParen, isRightParen, or_assoc]

namespace Node

section Induction

variable {P : Node → Prop} {Q : List Node → Prop}
  (node : ∀ n : Node, (∀ l ∈ n.lists, Q l) → P n) (nil : Q [])
  (cons : ∀ n ns, P n → Q ns → Q (n :: ns))

include node nil cons

-- The two parts use the assumptions through each other.
set_option linter.unusedSectionVars false

mutual

private theorem ofNode : ∀ n : Node, P n
  | .atom text => node _ (by simp [lists])
  | .binary op => node _ (by simp [lists])
  | .function name => node _ (by simp [lists])
  | .paren char => node _ (by simp [lists])
  | .frac numerator denominator =>
    node _ (by simpa [lists] using ⟨ofList numerator, ofList denominator⟩)
  | .radical none radicand => node _ (by simpa [lists] using ofList radicand)
  | .radical (some index) radicand =>
    node _ (by simpa [lists] using ⟨ofList index, ofList radicand⟩)
  | .scripts none none => node _ (by simp [lists])
  | .scripts (some exponent) none => node _ (by simpa [lists] using ofList exponent)
  | .scripts none (some subscript) => node _ (by simpa [lists] using ofList subscript)
  | .scripts (some exponent) (some subscript) =>
    node _ (by simpa [lists] using ⟨ofList exponent, ofList subscript⟩)
  | .wrapped wrap argument => node _ (by simpa [lists] using ofList argument)
  | .big op top bottom => node _ (by simpa [lists] using ⟨ofList top, ofList bottom⟩)

private theorem ofList : ∀ ns : List Node, Q ns
  | [] => nil
  | n :: ns => cons n ns (ofNode n) (ofList ns)

end

/-- What holds of a node once it holds of its lists, and of a list once it holds of its nodes, holds
of all nodes and lists. -/
theorem induction : (∀ n, P n) ∧ ∀ ns, Q ns :=
  ⟨ofNode node nil cons, ofList node nil cons⟩

end Induction

/-- A node of any kind, made from lists that have a property. -/
inductive Made (Q : List Node → Prop) : Node → Prop
  | atom (text : String) : Made Q (.atom text)
  | binary (op : BinaryOp) : Made Q (.binary op)
  | function (name : String) : Made Q (.function name)
  | paren (char : Char) : Made Q (.paren char)
  | frac {numerator denominator : List Node} (hn : Q numerator) (hd : Q denominator) :
    Made Q (.frac numerator denominator)
  | squareRoot {radicand : List Node} (hr : Q radicand) : Made Q (.radical none radicand)
  | indexedRoot {index radicand : List Node} (hi : Q index) (hr : Q radicand) :
    Made Q (.radical (some index) radicand)
  | noScripts : Made Q (.scripts none none)
  | subscript {subscript : List Node} (hs : Q subscript) : Made Q (.scripts none (some subscript))
  | exponent {exponent : List Node} (he : Q exponent) : Made Q (.scripts (some exponent) none)
  | bothScripts {exponent subscript : List Node} (he : Q exponent) (hs : Q subscript) :
    Made Q (.scripts (some exponent) (some subscript))
  | wrapped (wrap : Wrap) {argument : List Node} (ha : Q argument) : Made Q (.wrapped wrap argument)
  | big (op : BigOp) {top bottom : List Node} (ht : Q top) (hb : Q bottom) :
    Made Q (.big op top bottom)

theorem made {Q : List Node → Prop} {n : Node} (h : ∀ l ∈ n.lists, Q l) : n.Made Q :=
  match n, h with
  | .atom text, _ => .atom text
  | .binary op, _ => .binary op
  | .function name, _ => .function name
  | .paren char, _ => .paren char
  | .frac _ _, h => .frac (h _ (by simp [lists])) (h _ (by simp [lists]))
  | .radical none _, h => .squareRoot (h _ (by simp [lists]))
  | .radical (some _) _, h => .indexedRoot (h _ (by simp [lists])) (h _ (by simp [lists]))
  | .scripts none none, _ => .noScripts
  | .scripts none (some _), h => .subscript (h _ (by simp [lists]))
  | .scripts (some _) none, h => .exponent (h _ (by simp [lists]))
  | .scripts (some _) (some _), h => .bothScripts (h _ (by simp [lists])) (h _ (by simp [lists]))
  | .wrapped wrap _, h => .wrapped wrap (h _ (by simp [lists]))
  | .big op _ _, h => .big op (h _ (by simp [lists])) (h _ (by simp [lists]))

/-- The property holds of a list and of all lists inside it, at every depth. -/
inductive EveryList (p : List Node → Prop) : List Node → Prop
  | intro {ns : List Node} (here : p ns) (inside : ∀ n ∈ ns, ∀ l ∈ n.lists, EveryList p l) :
    EveryList p ns

/-- The property holds of the nodes of a list and of all nodes inside them, at every depth. -/
abbrev EveryNode (p : Node → Prop) : List Node → Prop :=
  EveryList fun ns => ∀ n ∈ ns, p n

namespace EveryList

variable {p q : List Node → Prop} {ns : List Node}

theorem here (h : EveryList p ns) : p ns := by
  cases h
  assumption

theorem inside (h : EveryList p ns) {n : Node} (hn : n ∈ ns) {l : List Node} (hl : l ∈ n.lists) :
    EveryList p l := by
  cases h with
  | intro _ hi => exact hi n hn l hl

/-- A list of leaves has no lists inside. -/
theorem of_leaves (h : p ns) (hl : ∀ n ∈ ns, n.lists = []) : EveryList p ns :=
  .intro h fun n hn l hl' => by simp [hl n hn] at hl'

theorem mono (h : EveryList p ns) (hpq : ∀ ns, p ns → q ns) : EveryList q ns := by
  induction h with
  | intro hp _ ih => exact .intro (hpq _ hp) ih

theorem and (h : EveryList p ns) (h' : EveryList q ns) : EveryList (fun ns => p ns ∧ q ns) ns := by
  induction h with
  | intro hp _ ih => exact .intro ⟨hp, h'.here⟩ fun n hn l hl => ih n hn l hl (h'.inside hn hl)

end EveryList

theorem everyNode_nil {p : Node → Prop} : EveryNode p [] :=
  .intro (by simp) (by simp)

theorem everyNode_cons {p : Node → Prop} {n : Node} {ns : List Node} :
    EveryNode p (n :: ns) ↔ (p n ∧ ∀ l ∈ n.lists, EveryNode p l) ∧ EveryNode p ns := by
  constructor
  · intro h
    exact ⟨⟨h.here n (by simp), fun l hl => h.inside (by simp) hl⟩,
      .intro (fun m hm => h.here m (by simp [hm])) fun m hm l hl => h.inside (by simp [hm]) hl⟩
  · rintro ⟨⟨hn, hl⟩, hns⟩
    refine .intro ?_ ?_
    · simpa using ⟨hn, hns.here⟩
    · intro m hm l hml
      obtain rfl | hm := List.mem_cons.mp hm
      · exact hl l hml
      · exact hns.inside hm hml

theorem everyNode_append {p : Node → Prop} {ns ms : List Node} :
    EveryNode p (ns ++ ms) ↔ EveryNode p ns ∧ EveryNode p ms := by
  induction ns with
  | nil => simp [everyNode_nil]
  | cons n ns ih => simp [everyNode_cons, ih, and_assoc]

theorem everyNode_iff_forall {p : Node → Prop} {ns : List Node} :
    EveryNode p ns ↔ ∀ n ∈ ns, EveryNode p [n] := by
  induction ns with
  | nil => simp [everyNode_nil]
  | cons n ns ih =>
    rw [List.forall_mem_cons, ← ih, ← everyNode_append]
    rfl

theorem everyNode_singleton {p : Node → Prop} {n : Node} :
    EveryNode p [n] ↔ p n ∧ ∀ l ∈ n.lists, EveryNode p l := by
  simp [everyNode_cons, everyNode_nil]

end Node

end FormulaEditor
