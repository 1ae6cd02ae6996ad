import FormulaEditor.Caret.Selection
import FormulaEditor.Proofs.Text.Italic

/-!
# Writing a formula

What is written from the store of a formula is the text of the notation that the store reads as, at
every depth. No formula has to be in order for that.
-/

namespace FormulaEditor

/-- The text of an element is that of its node. -/
theorem Element.toText_eq (x : Element) (read : ListId → List Node) :
    x.toText (fun l => Tex.writeAfter [] (read l)) = Tex.writeNode (x.toNode read) := by
  cases x with
  | atom italic =>
    -- The node is out of italics already, and is taken out of them once more.
    exact congrArg String.toList (Text.unitalicize_unitalicize italic).symm
  | radical index radicand =>
    cases index with
    | none => exact congrArg (· ++ _) (List.append_nil _)
    | some index =>
      have hbracketed (cs rest : List Char) :
          '[' :: (cs ++ [']']) ++ rest = '[' :: (cs ++ ']' :: rest) := by simp
      exact (List.append_assoc ..).trans (congrArg _ (hbracketed ..))
  | scripts exponent subscript =>
    cases subscript with
    | none => cases exponent <;> rfl
    | some subscript =>
      cases exponent with
      | none => exact List.append_nil _
      | some exponent => rfl
  | binary | function | paren | frac | wrapped | big => rfl

namespace Formula

theorem writeAfter_eq (f : Formula) (read : ListId → List Node) (written : List Char)
    (es : List ElementId) : f.writeAfter (fun l => Tex.writeAfter [] (read l)) written es =
      Tex.writeAfter written (es.map fun e => (f.element e).toNode read) := by
  induction es generalizing written with
  | nil => rw [writeAfter, List.map_nil, Tex.writeAfter]
  | cons e es ih => rw [writeAfter, List.map_cons, Tex.writeAfter, ih, Element.toText_eq]

/-- By depth: the lists inside are written as the notation they read as. -/
theorem writeWithin_eq (f : Formula) (depth : Nat) :
    f.writeWithin depth = fun l => Tex.writeAfter [] (f.snapshotWithin depth l) := by
  induction depth with
  | zero => rfl
  | succ depth ih =>
    funext l
    rw [writeWithin, ih, writeAfter_eq, snapshotWithin]

/-- The text of elements is that of the nodes they read as. -/
theorem elementsTex_eq (f : Formula) (es : List ElementId) :
    f.elementsTex es = Tex.write (es.map f.snapshot) := by
  have hlists : f.writeList = fun l => Tex.writeAfter [] (f.snapshotList l) :=
    f.writeWithin_eq f.listSlots.size
  rw [elementsTex, hlists, writeAfter_eq]
  rfl

/-- The text of a formula is that of the nodes it reads as. -/
theorem tex_eq (f : Formula) : f.tex = Tex.write f.nodes := by
  rw [tex, writeList, writeWithin_eq]
  rfl

end Formula

/-- A copied text is that of the selected nodes. -/
theorem Caret.copy_eq (c : Caret) (f : Formula) :
    c.copy f = (c.selectedNodes f).map Tex.write := by
  have htext : f.elementsTex = fun es => Tex.write (es.map f.snapshot) := funext f.elementsTex_eq
  rw [copy, selectedNodes, htext]
  cases c.selectedElements f <;> rfl

end FormulaEditor
