import FormulaEditor.Proofs.Formula.Snapshot
import FormulaEditor.Proofs.Formula.Writing
import FormulaEditor.Proofs.Session.Reached
import FormulaEditor.Proofs.Tex.Settled

/-!
# Copies of content

What is planted reads as the node it was planted from, so content planted from its own snapshot is a
copy of it, with the same text. The text a session copies is that of a formula made of what is
selected.
-/

namespace FormulaEditor

/-- A formula made of nodes is written as the nodes are. -/
theorem Formula.tex_ofNodes (ns : List Node) : (ofNodes ns).tex = Tex.write ns := by
  rw [tex_eq, nodes_ofNodes, Tex.write_uprightAll]

/-- A copied text is that of a formula made of the selected nodes. -/
theorem Document.Valid.copy_ofNodes {doc : Document} (h : doc.Valid) :
    ∃ ns, doc.caret.selectedNodes doc.formula = .ok ns ∧
      doc.copy = .ok (Formula.ofNodes ns).tex := by
  obtain ⟨es, hes, -⟩ := h.caret.selectedElements h.formula
  have hns : doc.caret.selectedNodes doc.formula = .ok (es.map doc.formula.snapshot) := by
    rw [Caret.selectedNodes, hes]
    rfl
  refine ⟨_, hns, ?_⟩
  rw [Document.copy, Caret.copy_eq, hns, Formula.tex_ofNodes]
  rfl

namespace Session

/-- Planting a node changes nothing that is there, and hands out a new element that stands nowhere,
is in order, reads as the node out of italics and is written as the node is. An element planted from
a snapshot reads like the one that the snapshot is of, and is written like it. What can be copied in
a session is thus the text of a formula made of the selected nodes. -/
theorem planting_copies :
    (∀ (f : Formula) (n : Node), f.Bears n (f.plant n).1 (f.plant n).2 ∧
      (f.plant n).1.elementsTex [(f.plant n).2] = Tex.write [n]) ∧
    (∀ (f : Formula) (e : ElementId), let (g, e') := f.plant (f.snapshot e)
      g.snapshot e' = f.snapshot e ∧ g.elementsTex [e'] = f.elementsTex [e]) ∧
    ∀ s : Session, s.Reached → ∃ ns,
      s.document.caret.selectedNodes s.document.formula = .ok ns ∧
        s.copy = .ok (Formula.ofNodes ns).tex := by
  refine ⟨fun f n => ?_, fun f e => ?_, fun s hs => hs.valid.copy_ofNodes⟩
  · have hbears := f.bears_plant n
    refine ⟨hbears, ?_⟩
    rw [Formula.elementsTex_eq, List.map_singleton, hbears.snapshot]
    exact Tex.write_uprightAll [n]
  · have hsnapshot := (f.bears_plant (f.snapshot e)).snapshot
    rw [f.upright_snapshot] at hsnapshot
    refine ⟨hsnapshot, ?_⟩
    rw [Formula.elementsTex_eq, Formula.elementsTex_eq, List.map_singleton, hsnapshot]
    rfl

/-- A power read from text and selected is copied with its exponent in braces. -/
theorem planting_copies_power : ∃ read selected : Session, ofTex "x^2" .literal = .ok read ∧
    read.perform (.press .selectAll) = .ok selected ∧ selected.copy = .ok "x^\x7b2\x7d" ∧
    ∃ ns, selected.document.caret.selectedNodes selected.document.formula = .ok ns ∧
      selected.copy = .ok (Formula.ofNodes ns).tex := by
  have hread : ofTex "x^2" .literal = .ok _ := rfl
  have hallowed (s : Session) : (Action.press .selectAll).Allowed s := trivial
  have hselected := Reached.perform (.ofTex hread) (hallowed _) rfl
  exact ⟨_, _, hread, rfl, rfl, planting_copies.2.2 _ hselected⟩

end Session

end FormulaEditor
