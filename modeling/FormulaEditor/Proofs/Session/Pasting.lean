import FormulaEditor.Proofs.Document.Pasting
import FormulaEditor.Proofs.Session.Reached

/-!
# Pasting in a session

A paste replaces what is selected and leaves the rest alone, and what has been cut may be pasted
back.
-/

namespace FormulaEditor.Session

open Document

variable {s : Session} {run : Selection} {path : Path} {text : String} {ns : List Node}

/-- What a paste of nodes makes of a session: new elements stand where the run stood and read as the
nodes, all else stays, and the caret is right behind the new elements with nothing selected. -/
def Pasted (s : Session) (run : Selection) (path : Path) (ns : List Node) (s' : Session) : Prop :=
  ∃ g es, s' = { s with document :=
      { s.document with formula := g, caret := .ofPlace ⟨run.list, run.start + ns.length⟩ } } ∧
    s.document.formula.Replaces g run es ∧ es.length = ns.length ∧
    g.nodes = Node.changeAt (Node.spliced run.start run.stop (Node.uprightAll ns)) path
      s.document.formula.nodes

/-- A text that can be read is pasted as its nodes. -/
theorem paste_pasted (h : s.document.Valid) (hread : Tex.read text = .ok ns)
    (htarget : s.document.caret.target s.document.formula = .ok run)
    (hpath : s.document.formula.listAt? path = some run.list) :
    ∃ s', s.paste text = .ok (.ok s') ∧ s.Pasted run path ns s' := by
  obtain ⟨g, es, hpaste, hreplaces, hlength, hg, hspliced⟩ :=
    h.pasteNodes_replaces (Tex.filled_of_read hread) htarget
  refine ⟨_, ?_, g, es, rfl, hreplaces, hlength,
    (hreplaces.agreesBut h.formula.toLinked).nodes_eq h.formula.toSound hg.toSound hspliced hpath⟩
  rw [Session.paste, Document.paste, hread]
  simp only [hpaste]
  rfl

/-- What has been cut may be pasted back, as long as its text reads as what was selected. -/
theorem paste_cut (h : s.document.Valid) : ∃ s' text, s.cut = .ok (s', text) ∧
    s.copy = .ok text ∧
    ∀ ns, s.document.caret.selectedNodes s.document.formula = .ok ns → Tex.read text = .ok ns →
      ∃ s'', s'.paste text = .ok (.ok s'') ∧
        s''.document.formula.nodes = s.document.formula.nodes := by
  obtain ⟨run, text, doc, htarget, hv, hcopy, hcut, -, -, hpaste⟩ := h.cut_cleared
  refine ⟨{ s with document := doc }, text, ?_, hcopy, fun ns hns hread => ?_⟩
  · rw [Session.cut, hcut]
    rfl
  obtain ⟨g, es, hpasteNodes, hreplaces, -, hg, D, hspliced⟩ :=
    h.pasteNodes_replaces (Tex.filled_of_read hread) htarget
  obtain ⟨D', hsame⟩ := h.spliced_selectedNodes htarget hns
  obtain ⟨path, -, hpath⟩ := h.formula.toSound.listAt?_pathTo? hv.reachable
  have hnodes : g.nodes = Node.changeAt id path s.document.formula.nodes :=
    (hreplaces.agreesBut h.formula.toLinked).nodes_eq h.formula.toSound hg.toSound
      ⟨max D D', fun d hd => (hspliced d (by omega)).trans (hsame d (by omega))⟩ hpath
  rw [hpaste] at hpasteNodes
  have hpasted : Session.paste { s with document := doc } text = .ok (.ok { s with document :=
      ⟨g, .ofPlace ⟨run.list, run.start + ns.length⟩, s.document.convertsWords⟩ }) := by
    rw [Session.paste, Document.paste, hread]
    simp only [hpasteNodes]
    rfl
  exact ⟨_, hpasted, hnodes.trans (Node.changeAt_id path _)⟩

/-- A text that cannot be read is turned down, and the session stays as it is. A text that can be
read replaces the selected run, or goes in at the caret if nothing is selected: the formula reads as
before with the nodes of the text, letters out of italics, in the place of the run, and all that is
not in the run stays where it was. So what has been cut may be pasted back, as long as its text reads
as what was selected. -/
theorem Reached.paste_replaces (h : s.Reached) :
    (∀ text error, Tex.read text = .error error →
      s.paste text = .ok (.error error) ∧ s.perform (.paste text) = .ok s) ∧
    (∀ text ns, Tex.read text = .ok ns → ∃ run path s',
      s.document.caret.target s.document.formula = .ok run ∧
      s.document.formula.pathTo? run.list = some path ∧
      s.paste text = .ok (.ok s') ∧ s.Pasted run path ns s') ∧
    ∃ s' text, s.cut = .ok (s', text) ∧ s.copy = .ok text ∧
      ∀ ns, s.document.caret.selectedNodes s.document.formula = .ok ns → Tex.read text = .ok ns →
        ∃ s'', s'.paste text = .ok (.ok s'') ∧
          s''.document.formula.nodes = s.document.formula.nodes := by
  refine ⟨fun text error hread => ?_, fun text ns hread => ?_, paste_cut h.valid⟩
  · have hpaste : s.paste text = .ok (.error error) := by
      rw [Session.paste, Document.paste, hread]
      rfl
    refine ⟨hpaste, ?_⟩
    rw [Session.perform, hpaste]
    rfl
  · obtain ⟨run, -, -, htarget, hv, -⟩ := h.valid.cut_cleared
    obtain ⟨path, hpathTo, hpath⟩ := h.valid.formula.toSound.listAt?_pathTo? hv.reachable
    obtain ⟨s', hpaste, hpasted⟩ := paste_pasted h.valid hread htarget hpath
    exact ⟨run, path, s', htarget, hpathTo, hpaste, hpasted⟩

/-- A symbol that has been typed and selected is replaced by what is pasted, or cut and pasted
back. -/
theorem paste_replaces_symbol : ∃ typed selected : Session,
    (new .literal).perform (.type 'x') = .ok typed ∧
      typed.perform (.move .left true) = .ok selected ∧
      (∃ run path s, selected.document.caret.target selected.document.formula = .ok run ∧
        selected.document.formula.pathTo? run.list = some path ∧
        selected.paste "2" = .ok (.ok s) ∧ selected.Pasted run path [.ofChar '2'] s) ∧
      ∃ s text, selected.cut = .ok (s, text) ∧ selected.copy = .ok text ∧
        ∃ s', s.paste text = .ok (.ok s') ∧
          s'.document.formula.nodes = selected.document.formula.nodes := by
  have htype : (Action.type 'x').Allowed (new .literal) := trivial
  have hs : (new .literal).perform (.type 'x') = .ok _ := rfl
  have hreached := Reached.perform (.new .literal) htype hs
  have hmove : ∀ s : Session, (Action.move .left true).Allowed s := fun _ => trivial
  obtain ⟨-, hpaste, s, text, hcut, hcopy, hback⟩ :=
    Reached.paste_replaces (hreached.perform (hmove _) rfl)
  refine ⟨_, _, hs, rfl, hpaste "2" _ rfl, s, text, hcut, hcopy, ?_⟩
  obtain rfl : "x" = text := Except.ok.inj hcopy
  exact hback [.ofChar 'x'] rfl rfl

end FormulaEditor.Session
