import FormulaEditor.Proofs.Document.Deletion
import FormulaEditor.Proofs.Session.Reached

/-!
# Keys that delete

Backspace and Delete do one of four things to the formula of a session, or none of it at its edge.
-/

namespace FormulaEditor

/-- The direction in which a key deletes. -/
def Key.deletes? : Key → Option Direction
  | .backspace => some .left
  | .delete => some .right
  | .move _ _ | .selectAll | .copy | .cut => none

namespace Session

open Formula

variable {s : Session} {key : Key} {d : Direction}

theorem press_deletes (hkey : key.deletes? = some d) {doc : Document} {removed : List ElementId}
    (hdelete : s.document.delete d = .ok (doc, removed)) :
    s.press key = .ok ({ s with document := doc }, .edited) := by
  cases key with
  | backspace | delete =>
    cases hkey
    rw [press, edit, hdelete]
    rfl
  | move | selectAll | copy | cut => cases hkey

/-- Without a selection, a key that deletes does just one of these: nothing, which it does at the edge
of the formula in its direction only; it removes one leaf; it puts what an element held in the place
of the element; or it takes one of two halves from scripts and puts what that held beside them.
Whatever is done makes the formula smaller, and unless a leaf is removed all leaves stay. -/
theorem Reached.press_deletion (h : s.Reached) (hs : s.document.caret.selecting = false)
    (hkey : key.deletes? = some d) :
    ∃ s', s.press key = .ok (s', .edited) ∧
      (∃! o, Deletion.Describes s.document.formula s'.document.formula o) ∧
      (Deletion.nothing.Describes s.document.formula s'.document.formula ↔
        s.document.formula.AtEdge s.document.caret.place d) ∧
      ∀ o, Deletion.Describes s.document.formula s'.document.formula o →
        (o ≠ .nothing →
          s'.document.formula.allElements.length + s'.document.formula.allLists.length <
            s.document.formula.allElements.length + s.document.formula.allLists.length) ∧
        ((∀ e, o ≠ .removed e) →
          s'.document.formula.leaves.Perm s.document.formula.leaves) := by
  have hrest : s.document.Resting := ⟨h.valid, hs⟩
  have hd : d.isVertical = false := by
    cases key <;> cases hkey <;> rfl
  obtain ⟨doc', o, hdelete, hrest', hdecided, hdesc, -⟩ := hrest.delete_decided hd rfl
  have hf := hrest.formula.toSound
  have hg := hrest'.formula.toSound
  refine ⟨_, press_deletes hkey hdelete, ⟨o, hdesc, fun o' ho' => ho'.unique hf hdesc⟩, ?_,
    fun o' ho' => ⟨fun hne => ho'.size_lt hf hg hne, fun hne => ho'.leaves_perm hf hg hne⟩⟩
  rw [← Document.decided_nothing_iff hrest hd rfl hdecided]
  constructor
  · exact fun hnothing => hdesc.unique hf hnothing
  · rintro rfl
    exact hdesc

/-- Backspace in an exponent that has just been opened does something, and just one thing. -/
theorem press_deletion_in_exponent : ∃ s s', (new .standard).perform (.type '^') = .ok s ∧
    s.press .backspace = .ok (s', .edited) ∧
    (∃! o, Deletion.Describes s.document.formula s'.document.formula o) ∧
    ¬Deletion.nothing.Describes s.document.formula s'.document.formula := by
  have hallowed : (Action.type '^').Allowed (new .standard) := trivial
  have htype : ∃ s, (new .standard).perform (.type '^') = .ok s ∧
      s.document.caret.selecting = false ∧
      s.document.caret.place ≠ startOf s.document.formula.root :=
    ⟨_, rfl, rfl, by decide⟩
  obtain ⟨s, hs, hselecting, hedge⟩ := htype
  obtain ⟨s', hpress, hone, hnothing, -⟩ :=
    Reached.press_deletion (.perform (.new .standard) hallowed hs) hselecting
      (rfl : Key.backspace.deletes? = some .left)
  exact ⟨s, s', hs, hpress, hone, fun hc => hedge (hnothing.mp hc)⟩

end Session

end FormulaEditor
