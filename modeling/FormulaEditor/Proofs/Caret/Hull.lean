import FormulaEditor.Proofs.Caret.Selection
import FormulaEditor.Proofs.Session.Edits

/-!
# The run between two places

There is just one run of the lowest common list of two places that reaches both and is not longer
than it has to be. It does not matter which of the two is the caret and which the anchor.
-/

namespace FormulaEditor

namespace Selection.IsHull

variable {f : Formula} {p q : Place} {s s' : Selection} {pending : List ElementId}

theorem unique (hf : f.Sound pending) (hp : f.Reachable p.list) (h : s.IsHull f p q)
    (h' : s'.IsHull f p q) : s = s' := by
  obtain ⟨l, a, b⟩ := s
  obtain ⟨l', a', b'⟩ := s'
  obtain rfl : l = l' := by
    obtain ⟨k, hk⟩ := h.innermost.left
    obtain ⟨m, hm⟩ := h'.innermost.lowest l ⟨k, hk⟩ h.innermost.right
    obtain ⟨n, hn⟩ := h.innermost.lowest l' h'.innermost.left h'.innermost.right
    exact hf.below_antisymm (hf.reachable_of_below hp hk) hm hn
  obtain ⟨hstart, hstop⟩ := h.least a' b' h'.covers_left h'.covers_right
  obtain ⟨hstart', hstop'⟩ := h'.least a b h.covers_left h.covers_right
  obtain rfl : a = a' := Nat.le_antisymm hstart' hstart
  obtain rfl : b = b' := Nat.le_antisymm hstop hstop'
  rfl

end Selection.IsHull

namespace Caret

variable {f : Formula} {p q : Place}

/-- For any two places of a sound formula there is a selection with the caret at the one and the
anchor at the other: the shortest run of their lowest common list that reaches both. There is no
other such run, so it does not matter which of the two is the caret. -/
theorem selection?_hull (h : f.Sound []) (hp : f.IsPlace p) (hq : f.IsPlace q) (selecting : Bool) :
    ∃ s, (⟨p, some q, selecting⟩ : Caret).selection? f = .ok (some s) ∧ s.IsHull f p q ∧
      (∀ s' : Selection, s'.IsHull f p q → s' = s) ∧
      (⟨q, some p, selecting⟩ : Caret).selection? f = .ok (some s) := by
  obtain ⟨s, hs, hhull⟩ := selection?_isHull h hp hq selecting
  obtain ⟨s', hs', hhull'⟩ := selection?_isHull h hq hp selecting
  obtain rfl := hhull.unique h hp.reachable hhull'.symm
  exact ⟨s, hs, hhull, fun s' h' => h'.unique h hp.reachable hhull, hs'⟩

/-- From the numerator of a fraction to the exponent behind it. -/
theorem selection?_hull_of_numerator_and_exponent :
    let f := Formula.ofNodes [.paren '(', .frac [.paren '('] [], .scripts (some [.paren ')']) none]
    let s : Selection := ⟨⟨0⟩, 1, 3⟩
    f.Sound [] ∧ f.IsPlace ⟨⟨1⟩, 1⟩ ∧ f.IsPlace ⟨⟨3⟩, 0⟩ ∧ s.IsHull f ⟨⟨1⟩, 1⟩ ⟨⟨3⟩, 0⟩ ∧
      (⟨⟨⟨1⟩, 1⟩, some ⟨⟨3⟩, 0⟩, true⟩ : Caret).selection? f = .ok (some s) ∧
      (⟨⟨⟨3⟩, 0⟩, some ⟨⟨1⟩, 1⟩, true⟩ : Caret).selection? f = .ok (some s) := by
  intro f s
  have hfilled : Node.EveryNode Node.Filled
      [.paren '(', .frac [.paren '('] [], .scripts (some [.paren ')']) none] := by
    simp [Node.everyNode_cons, Node.everyNode_nil, Node.Filled, Node.lists]
  have hf : f.Sound [] := (Document.valid_ofNodes (b := false) hfilled).formula.toSound
  have hplace : f.IsPlace ⟨⟨1⟩, 1⟩ := by
    refine ⟨⟨1, .inside (e := ⟨1⟩) (.here _) (by decide) (by decide)⟩, by decide⟩
  have hanchor : f.IsPlace ⟨⟨3⟩, 0⟩ := by
    refine ⟨⟨1, .inside (e := ⟨3⟩) (.here _) (by decide) (by decide)⟩, by decide⟩
  obtain ⟨s', hs, hhull, -, hswapped⟩ := selection?_hull hf hplace hanchor true
  obtain rfl : s = s' := Option.some.inj (Except.ok.inj (Eq.trans (by decide +kernel) hs))
  exact ⟨hf, hplace, hanchor, hhull, hs, hswapped⟩

end Caret

end FormulaEditor
