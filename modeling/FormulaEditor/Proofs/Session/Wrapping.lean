import FormulaEditor.Proofs.Document.Joining
import FormulaEditor.Proofs.Session.Setting

/-!
# Keys that keep the selection

The keys for a fraction, for an absolute value and for scripts do not replace what is selected. They
put an element around it, or put it into scripts that stand beside it.
-/

namespace FormulaEditor.Session

/-- A key that keeps the selection. -/
inductive Wrapping
  | fraction
  | abs
  | script (superscript : Bool)
deriving DecidableEq, Repr

namespace Wrapping

/-- The character of the key. -/
def char : Wrapping → Char
  | fraction => '/'
  | abs => '|'
  | script superscript => if superscript then '^' else '_'

/-- What the key asks for. -/
def typed : Wrapping → Typed
  | fraction => .fraction
  | abs => .node (.wrapped .abs [])
  | script superscript => if superscript then .superscript else .subscript

/-- An element that the key inserts holds a run and nothing else, in its numerator, its argument or
its one half, and the caret goes to a place of it: into the empty denominator, or right behind the
run. -/
def Holds (w : Wrapping) (f : Formula) (e : ElementId) (run : List ElementId) (p : Place) : Prop :=
  match w with
  | fraction => ∃ numerator denominator, f.element e = .frac numerator denominator ∧
      f.elements numerator = run ∧ f.elements denominator = [] ∧ p = Formula.startOf denominator
  | abs => ∃ argument, f.element e = .wrapped .abs argument ∧ f.elements argument = run ∧
      p = ⟨argument, run.length⟩
  | script superscript => ∃ half,
      f.element e = (Element.scripts none none none).withHalf superscript half ∧
      f.elements half = run ∧ p = ⟨half, run.length⟩

theorem ofChar?_char (w : Wrapping) : Typed.ofChar? w.char = some w.typed := by
  match w with
  | fraction => rfl
  | abs => rfl
  | script true => rfl
  | script false => rfl

end Wrapping

section Applying

open Document

variable {doc : Document} {sel : Selection} {greedy : Bool}

/-- Greedy or not, a fraction is put around what is selected. -/
theorem apply_fraction_of_selecting (hs : doc.caret.selecting = true) :
    Typed.apply greedy doc .fraction = doc.insertNode (.frac [] []) .left := by
  cases greedy with
  | false => rfl
  | true =>
    change doc.insertGreedy .frac = _
    unfold Document.insertGreedy
    rw [if_pos hs]
    rfl

/-- What a key does to a document with a selection: a new element holds the selected elements where
they stood, or scripts beside them have taken them in. -/
def Wrapping.Wraps (w : Wrapping) (doc : Document) (sel : Selection) (g : Formula) (e : ElementId)
    (p : Place) : Prop :=
  (doc.formula.Gathers g ⟨sel.list, sel.stop⟩ e (sel.elements doc.formula) [] ∧
      w.Holds g e (sel.elements doc.formula) p) ∨
    ∃ superscript half, w = .script superscript ∧ sel.list = doc.caret.place.list ∧
      doc.formula.Joins g sel superscript e half p

variable (h : doc.Valid) (hw : doc.convertsWords = false) (hs : doc.caret.selecting = true)
  (hsel : doc.caret.selected? doc.formula = .ok (some sel))

include h hw hs hsel

section Split

variable {before after : List ElementId} (hr : doc.formula.Reachable sel.list)
  (hsplit : doc.formula.elements sel.list = before ++ (sel.elements doc.formula ++ after))
  (hstart : sel.start = before.length)
  (hstop : sel.stop = before.length + (sel.elements doc.formula).length)

include hr hsplit hstart hstop

theorem apply_fraction_wraps (greedy : Bool) : ∃ g e p,
    Typed.apply greedy doc .fraction = .ok { doc with formula := g, caret := .ofPlace p } ∧
      Wrapping.fraction.Wraps doc sel g e p := by
  obtain ⟨ls, hls, hinsert⟩ := h.insertNode_selected (n := .frac [] []) (k := 2) hw hs hsel hr
    hsplit hstart hstop rfl trivial .left
  obtain ⟨numerator, denominator, rfl⟩ := List.length_eq_two.mp hls
  obtain ⟨g, hinsert, hg, hx, hrun, hothers⟩ := hinsert numerator denominator rfl rfl
  have hlists : g.listsOf _ = [numerator, denominator] := congrArg Element.lists hx
  have hmem : doc.formula.nextElement ∈ g.elements sel.list := by
    rw [hg.list]
    simp
  have hnodup := (hg.tidy.whole _ _ (hg.tidy.mem_elements.mp hmem)).nodup
  have hne : denominator ≠ numerator := by
    rw [hlists] at hnodup
    exact fun hc => by simp [hc] at hnodup
  have hempty := hothers denominator (by simp [hlists]) hne
  have hgathers : doc.formula.Gathers g ⟨sel.list, sel.stop⟩ _ (sel.elements doc.formula) [] :=
    hg.gathers h.formula hsplit (by simp [hlists, hrun, hempty]) hstop (by simp [hlists])
  refine ⟨g, _, _, (apply_fraction_of_selecting hs).trans hinsert,
    .inl ⟨hgathers, numerator, denominator, hx, hrun, hempty, ?_⟩⟩
  rw [Formula.endOf, Formula.length, hempty]
  rfl

theorem insertNode_abs_wraps : ∃ g e p,
    doc.insertNode (.wrapped .abs []) .left =
        .ok { doc with formula := g, caret := .ofPlace p } ∧
      Wrapping.abs.Wraps doc sel g e p := by
  obtain ⟨ls, hls, hinsert⟩ := h.insertNode_selected (n := .wrapped .abs []) (k := 1) hw hs hsel hr
    hsplit hstart hstop rfl trivial .left
  obtain ⟨argument, rfl⟩ := List.length_eq_one_iff.mp hls
  obtain ⟨g, hinsert, hg, hx, hrun, -⟩ := hinsert argument argument rfl rfl
  have hlists : g.listsOf _ = [argument] := congrArg Element.lists hx
  have hgathers : doc.formula.Gathers g ⟨sel.list, sel.stop⟩ _ (sel.elements doc.formula) [] :=
    hg.gathers h.formula hsplit (by simp [hlists, hrun]) hstop (by simp [hlists])
  refine ⟨g, _, _, hinsert, .inl ⟨hgathers, argument, hx, hrun, ?_⟩⟩
  rw [Formula.endOf, Formula.length, hrun]

/-- Scripts beside the selection take it in, and without such scripts new ones do. -/
theorem insertScript_wraps (superscript : Bool) : ∃ g e p,
    doc.insertScript superscript = .ok { doc with formula := g, caret := .ofPlace p } ∧
      (Wrapping.script superscript).Wraps doc sel g e p := by
  cases hreuse : doc.reusableScripts? (some sel) with
  | none =>
    obtain ⟨g, half, hinsert, hg, hx, hrun⟩ := h.insertScript_selected hw hs hsel hr hsplit hstart
      hstop hreuse superscript
    have hlists : g.listsOf _ = [half] :=
      (congrArg Element.lists hx).trans (Element.withHalf_new superscript half).1
    have hgathers : doc.formula.Gathers g ⟨sel.list, sel.stop⟩ _ (sel.elements doc.formula) [] :=
      hg.gathers h.formula hsplit (by simp [hlists, hrun]) hstop (by simp [hlists])
    refine ⟨g, _, _, hinsert, .inl ⟨hgathers, half, hx, hrun, ?_⟩⟩
    rw [Formula.endOf, Formula.length, hrun]
  | some reused =>
    obtain ⟨g, half, p, hinsert, hlist, hjoins⟩ := h.insertScript_joins hs hsel hreuse superscript
    exact ⟨g, reused.1, p, hinsert, .inr ⟨superscript, half, rfl, hlist, hjoins⟩⟩

end Split

/-- A key that keeps the selection succeeds and puts an element around it. -/
theorem apply_wraps (greedy : Bool) (w : Wrapping) : ∃ g e p,
    w.typed.apply greedy doc = .ok { doc with formula := g, caret := .ofPlace p } ∧
      w.Wraps doc sel g e p := by
  obtain ⟨anchor, -, hhull⟩ := h.caret.isHull h.formula hsel
  have hv := hhull.valid h.formula.toSound h.caret.place.reachable
  have hr := hv.reachable
  obtain ⟨before, after, hsplit, hstart, hstop⟩ := hv.exists_split
  cases w with
  | fraction => exact apply_fraction_wraps h hw hs hsel hr hsplit hstart hstop greedy
  | abs => exact insertNode_abs_wraps h hw hs hsel hr hsplit hstart hstop
  | script superscript =>
    have happly : (Wrapping.script superscript).typed.apply greedy doc =
        doc.insertScript superscript := by cases superscript <;> rfl
    rw [happly]
    exact insertScript_wraps h hw hs hsel hr hsplit hstart hstop superscript

end Applying

/-- While words are not read, the keys for a fraction, an absolute value and scripts keep what is
selected. The selected elements, the same ones and in their order, are the numerator of one new
fraction, the argument of one new absolute value, or a half of one new pair of scripts, which stands
where they stood; or scripts right beside them in the list of the caret have taken them into a half,
all of whose contents stay. Nothing is selected any more, all else stays in its list and in its
order, and the caret is in the denominator of the fraction and otherwise right behind the
elements. -/
theorem Reached.typeChar_wraps {s : Session} (h : s.Reached)
    (ho : s.options.convertSpecials = false) (hs : s.document.caret.selecting = true)
    (w : Wrapping) :
    ∃ sel g e p, s.document.caret.selected? s.document.formula = .ok (some sel) ∧
      s.typeChar w.char = .ok
        ({ s with document := { s.document with formula := g, caret := .ofPlace p } }, .edited) ∧
      w.Wraps s.document sel g e p := by
  obtain ⟨sel, hsel, -⟩ := h.valid.delete_selection hs .left
  obtain ⟨g, e, p, happly, hwraps⟩ :=
    apply_wraps h.valid (h.agrees.trans ho) hs hsel s.options.greedyFraction w
  refine ⟨sel, g, e, p, hsel, ?_, hwraps⟩
  unfold Session.typeChar Session.edit
  rw [w.ofChar?_char]
  simp only [happly, bind, Except.bind]

/-- A symbol that is typed and selected becomes the numerator of a fraction. -/
theorem typeChar_wraps_symbol : ∃ s s' : Session,
    (new .literal).perform (.type 'x') = .ok s ∧ s.perform (.move .left true) = .ok s' ∧
      s'.options.convertSpecials = false ∧ s'.document.caret.selecting = true ∧
      ∃ sel g e p, s'.document.caret.selected? s'.document.formula = .ok (some sel) ∧
        s'.typeChar '/' = .ok
          ({ s' with document := { s'.document with formula := g, caret := .ofPlace p } },
            .edited) ∧
        Wrapping.fraction.Wraps s'.document sel g e p := by
  have htype : (Action.type 'x').Allowed (new .literal) := trivial
  have hs : (new .literal).perform (.type 'x') = .ok _ := rfl
  have hreached := Reached.perform (.new .literal) htype hs
  have hmove : ∀ s : Session, (Action.move .left true).Allowed s := fun _ => trivial
  exact ⟨_, _, hs, rfl, rfl, rfl,
    Reached.typeChar_wraps (hreached.perform (hmove _) rfl) rfl rfl .fraction⟩

end FormulaEditor.Session
