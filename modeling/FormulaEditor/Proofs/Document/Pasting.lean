import FormulaEditor.Proofs.Document.Clipboard
import FormulaEditor.Proofs.Formula.Locality

/-!
# What a paste puts where

A paste goes in two steps: what is selected is taken out, as a cut does, and then new elements go in
where it stood. So pasting into a document comes to the same as pasting into what a cut leaves of it,
and all that is not in the run stays.
-/

namespace FormulaEditor

open Formula

/-- The run that a paste replaces: what is selected, or nothing at the caret. -/
def Caret.target (c : Caret) (f : Formula) : Except Misuse Selection := do
  match ← c.selected? f with
  | some s => .ok s
  | none => .ok ⟨c.place.list, c.place.pos, c.place.pos⟩

theorem Formula.length_plantAll {f : Formula} {ns : List Node} :
    (f.plantAll ns).2.length = ns.length := by
  induction ns generalizing f with
  | nil => rfl
  | cons n ns ih => exact congrArg (· + 1) ih

/-- The nodes of a run are the run of the nodes of its list. -/
theorem Formula.map_snapshot_run (f : Formula) (l : ListId) (start count : Nat) :
    (((f.elements l).drop start).take count).map f.snapshot =
      ((f.snapshotWithin (f.listSlots.size + 1) l).drop start).take count := by
  rw [snapshotWithin_succ, List.map_take, List.map_drop]
  rfl

namespace Document

variable {doc : Document} {s : Selection} {ns : List Node}

/-- The document with nothing in the place of the run, and the caret where the run stood. -/
def Cleared (doc : Document) (s : Selection) (doc' : Document) : Prop :=
  ∃ g, doc.formula.Replaces g s [] ∧
    doc' = { doc with formula := g, caret := .ofPlace ⟨s.list, s.start⟩ }

/-- Cutting clears what a paste replaces, and a paste begins in the same way. -/
theorem Valid.cut_cleared (h : doc.Valid) : ∃ s text doc',
    doc.caret.target doc.formula = .ok s ∧ s.Valid doc.formula ∧ doc.copy = .ok text ∧
      doc.cut = .ok (doc', text) ∧ doc.Cleared s doc' ∧ doc'.Resting ∧
      ∀ ns, doc.pasteNodes ns = doc'.pasteNodes ns := by
  obtain ⟨text, htext⟩ := h.copy
  obtain ⟨hselecting, hsel⟩ | ⟨hselecting, s, hsel, hv⟩ := h.caret.selected? h.formula
  · have hrest : doc.Resting := ⟨h, hselecting⟩
    refine ⟨⟨doc.caret.place.list, doc.caret.place.pos, doc.caret.place.pos⟩, text, doc, ?_, ?_,
      htext, ?_, ⟨doc.formula, .refl rfl, ?_⟩, hrest, fun _ => rfl⟩
    · rw [Caret.target, hsel]
      rfl
    · exact ⟨h.caret.place.reachable, Nat.le_refl _, h.caret.place.le_length⟩
    · rw [Document.cut, htext]
      simp [bind, Except.bind, hselecting]
    · exact congrArg (fun c => { doc with caret := c }) hrest.caret_eq
  · obtain ⟨s', hsel', -, hdelete⟩ := h.delete_selection hselecting .left
    obtain rfl : s' = s := Option.some.inj (Except.ok.inj (hsel'.symm.trans hsel))
    have hrest := h.remove hv
    refine ⟨s', text, _, ?_, hv, htext, ?_,
      ⟨_, .removed (h.formula.hasList_of_reachable hv.reachable), rfl⟩, hrest, fun ns => ?_⟩
    · rw [Caret.target, hsel]
      rfl
    · rw [Document.cut, htext]
      simp only [bind, Except.bind, hselecting, if_true, hdelete]
    · unfold Document.pasteNodes
      rw [hdelete, hselecting, hrest.selecting]
      rfl

/-- Pasting at rest puts new elements in at the caret and steps past them. -/
theorem Resting.pasteNodes_eq (h : doc.Resting) (hns : Node.EveryNode Node.Filled ns) :
    doc.pasteNodes ns = .ok
      { doc with
        formula := ((doc.formula.plantAll ns).1.replaceRange doc.caret.place.list
          doc.caret.place.pos doc.caret.place.pos (doc.formula.plantAll ns).2).1
        caret := .ofPlace ⟨doc.caret.place.list,
          doc.caret.place.pos + (doc.formula.plantAll ns).2.length⟩ } := by
  obtain ⟨hg, hgrows, -⟩ := h.formula.plantAll hns
  have hplace := (h.toValid.grows hg hgrows).caret.place
  unfold Document.pasteNodes
  rw [h.selecting]
  have hinsert : Document.insertElements { doc with formula := (doc.formula.plantAll ns).1 }
      doc.caret.place.list doc.caret.place.pos (doc.formula.plantAll ns).2 true = _ :=
    insertElements_eq hplace.le_length
  refine hinsert.trans ?_
  rw [Document.moveCaret, h.caret_eq]
  rfl

/-- Pasting into a valid document succeeds. New elements, which read as the nodes, are in the place of
the run, all else is where it was, and the caret is behind the new elements. -/
theorem Valid.pasteNodes_replaces (h : doc.Valid) (hns : Node.EveryNode Node.Filled ns)
    (hs : doc.caret.target doc.formula = .ok s) : ∃ g es,
      doc.pasteNodes ns = .ok
        { doc with formula := g, caret := .ofPlace ⟨s.list, s.start + ns.length⟩ } ∧
      doc.formula.Replaces g s es ∧ es.length = ns.length ∧ g.Tidy ∧
      ∃ D, ∀ d ≥ D, g.snapshotWithin d s.list =
        Node.spliced s.start s.stop (Node.uprightAll ns) (doc.formula.snapshotWithin d s.list) := by
  obtain ⟨s', text, doc', hs', hv, -, -, ⟨g, hreplaces, rfl⟩, hrest, hpaste⟩ := h.cut_cleared
  obtain rfl : s' = s := Except.ok.inj (hs'.symm.trans hs)
  have hf := h.formula
  have hg : g.Tidy := hrest.formula
  have hlist := hf.hasList_of_reachable hv.reachable
  have hplace : g.IsPlace ⟨s'.list, s'.start⟩ := hrest.caret.place
  have hp := planted.2 ns g [] hg.toSound (by simp)
  obtain ⟨hg', hgrows, hready⟩ := hg.plantAll hns
  have hreach := hgrows.keeps.reachable hplace.reachable
  have hinserted := hreplaces.insert hgrows hlist (Nat.le_trans hv.start_le hv.stop_le) hp.fresh
  have hspells : Spells ((g.plantAll ns).1.replaceRange s'.list s'.start s'.start
      (g.plantAll ns).2).1 (g.plantAll ns).2 (Node.uprightAll ns) :=
    (spells_plantAll g ns).replaceRange hg'.toSound hreach hready.toLoose hready.whole
  refine ⟨_, (g.plantAll ns).2, ?_, hinserted, length_plantAll, ?_,
    hinserted.exists_spliced hf.toSound hv.reachable hspells⟩
  · rw [hpaste, hrest.pasteNodes_eq hns, length_plantAll]
    rfl
  · exact hg'.replaceRange (hgrows.hasList (hplace.hasList hg)) (Nat.le_refl _) hready

/-- Where nodes are pasted over a run that reads as they do, the list reads the same. -/
theorem Valid.spliced_selectedNodes (h : doc.Valid) (hs : doc.caret.target doc.formula = .ok s)
    (hns : doc.caret.selectedNodes doc.formula = .ok ns) : ∃ D, ∀ d ≥ D,
      Node.spliced s.start s.stop (Node.uprightAll ns) (doc.formula.snapshotWithin d s.list) =
        doc.formula.snapshotWithin d s.list := by
  unfold Caret.target at hs
  unfold Caret.selectedNodes at hns
  obtain ⟨-, hsel⟩ | ⟨-, s', hsel, hv⟩ := h.caret.selected? h.formula
  · rw [hsel] at hs
    rw [Caret.selectedElements_of_none hsel] at hns
    obtain rfl := Except.ok.inj hs
    obtain rfl := Except.ok.inj hns
    exact ⟨0, fun d _ => by simp [Node.spliced, Node.uprightAll, Node.respelledAll]⟩
  · rw [hsel] at hs
    rw [Caret.selectedElements_of_some hsel hv] at hns
    obtain rfl : s' = s := Except.ok.inj hs
    obtain rfl := (map_snapshot_run ..).symm.trans (Except.ok.inj hns)
    obtain ⟨n, hn⟩ := hv.reachable
    refine ⟨doc.formula.listSlots.size + 1, fun d hd => ?_⟩
    have hdepth : doc.formula.snapshotWithin d s'.list =
        doc.formula.snapshotWithin (doc.formula.listSlots.size + 1) s'.list :=
      h.formula.snapshotWithin_eq hn (by omega) (by omega)
    rw [hdepth]
    have hupright := uprightAll_snapshotWithin (f := doc.formula)
      (d := doc.formula.listSlots.size + 1) (l := s'.list)
    generalize doc.formula.snapshotWithin (doc.formula.listSlots.size + 1) s'.list = L at hupright ⊢
    rw [Node.spliced, Node.uprightAll_eq_map, List.map_take, List.map_drop,
      ← Node.uprightAll_eq_map, hupright, ← Node.spliced]
    exact Node.spliced_self hv.start_le

end Document

end FormulaEditor
