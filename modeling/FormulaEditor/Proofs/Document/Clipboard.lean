import FormulaEditor.Document.Clipboard
import FormulaEditor.Proofs.Document.Insert
import FormulaEditor.Proofs.Tex.Legible

/-!
# Copying, cutting and pasting keep a document valid
-/

namespace FormulaEditor

theorem Node.Legible.filled {n : Node} (h : n.Legible) : n.Filled := by
  unfold Node.Filled
  split
  · exact h
  · trivial

/-- Scripts in formula text have a half. -/
theorem Tex.filled_of_read {text : String} {ns : List Node} (h : Tex.read text = .ok ns) :
    Node.EveryNode Node.Filled ns :=
  (Tex.legible_of_read h).mono fun _ hn n hmem => (hn n hmem).filled

namespace Document

variable {doc : Document}

/-- Copying succeeds. -/
theorem Valid.copy (h : doc.Valid) : ∃ text, doc.copy = .ok text := by
  obtain ⟨es, hes, -⟩ := h.caret.selectedElements h.formula
  exact ⟨doc.formula.elementsTex es, by rw [Document.copy, Caret.copy, hes]; rfl⟩

/-- Cutting succeeds. -/
theorem Valid.cut (h : doc.Valid) : Succeeds doc.cut fun r => r.1.Valid := by
  obtain ⟨text, htext⟩ := h.copy
  unfold Document.cut
  rw [htext]
  refine Succeeds.bind (Succeeds.ok rfl) ?_
  rintro _ rfl
  split
  · refine (h.delete rfl).bind ?_
    rintro ⟨doc', removed⟩ hrest
    exact .ok hrest.toValid
  · exact .ok h

/-- Pasting nodes succeeds, provided that scripts in them have a half. -/
theorem Valid.pasteNodes (h : doc.Valid) {ns : List Node}
    (hns : Node.EveryNode Node.Filled ns) : Succeeds (doc.pasteNodes ns) Resting := by
  have hthen : ∀ doc : Document, doc.Resting → Succeeds
      (insertElements { doc with formula := (doc.formula.plantAll ns).1 } doc.caret.place.list
        doc.caret.place.pos (doc.formula.plantAll ns).2 true) Resting := by
    intro doc hrest
    obtain ⟨hg, hgrows, hes⟩ := hrest.formula.plantAll hns
    exact hrest.insertElements hg (hrest.toValid.grows hg hgrows).caret.place hes
  unfold Document.pasteNodes
  cases hs : doc.caret.selecting with
  | false => exact hthen doc ⟨h, hs⟩
  | true =>
    refine ((h.delete rfl).mono fun _ h => h).map.bind fun doc' hrest => hthen doc' hrest

/-- Pasting a text that can be read succeeds; another text is turned down. -/
theorem Valid.paste (h : doc.Valid) (text : String) :
    Succeeds (doc.paste text) fun r => ∀ doc', r = .ok doc' → doc'.Valid := by
  unfold Document.paste
  cases hr : Tex.read text with
  | error e => simp
  | ok ns =>
    refine ((h.pasteNodes (Tex.filled_of_read hr)).mono fun doc' h => ?_).map
    rintro _ ⟨⟩
    exact h.toValid

end Document

end FormulaEditor
