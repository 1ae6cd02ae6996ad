import FormulaEditor.Proofs.Document.Exponent
import FormulaEditor.Proofs.Session.Setting

/-!
# Raised digits

A digit in a raised glyph is typed into an exponent, which is opened for it, and then the caret
takes a step to the right. That step leads back to the baseline only if the digit ends the exponent
and the scripts have no subscript.
-/

namespace FormulaEditor

/-- A digit is a symbol of its own: it is no letter, and no other style of it is set back. -/
theorem digitChar_symbol : ∀ digit < 10, toString digit = String.singleton digit.digitChar ∧
    Text.plain digit.digitChar = digit.digitChar ∧ digit.digitChar.isAlpha = false ∧
    (Node.ofWord (String.singleton digit.digitChar)).kind =
      .atom (String.singleton digit.digitChar) := by
  decide +kernel

namespace Document

variable {doc : Document}

/-- A digit is typed into an exponent. -/
theorem Opens.typeDigit {doc' : Document} {i digit : Nat} {subscript : Option ListId}
    {front behind : List ElementId} (h : doc.Opens doc' i subscript front behind)
    (hdigit : digit < 10) : Succeeds (doc'.insertNode (.atom (toString digit)) .left) fun doc'' =>
      doc''.Resting ∧ ∃ e half,
        doc'.TypesInto doc'' doc.caret.place.list i e half subscript front behind
          (toString digit) := by
  obtain ⟨e, half, hin⟩ := h.exponent
  obtain ⟨hc, hplain, halpha, hword⟩ := digitChar_symbol digit hdigit
  rw [hc]
  obtain ⟨doc'', hinsert, htypes⟩ := hin.typeSymbol hplain halpha hword
  have hfilled : Node.EveryNode Node.Filled [.atom (String.singleton digit.digitChar)] :=
    Node.everyNode_filled trivial (by simp [Node.lists])
  exact ⟨doc'', hinsert, (hin.resting.toValid.insertNode hfilled .left).of_eq_ok hinsert, e, half,
    htypes⟩

end Document

namespace Session

open Document Formula

/-- A raised digit goes into the exponent of scripts in the list of the caret, in scripts that stand
beside the caret or in new ones. Where the caret is then depends: it is directly behind the scripts
just if these have no subscript and the digit ends the exponent. -/
theorem Reached.typeChar_raised {s : Session} (h : s.Reached)
    (hs : s.document.caret.selecting = false) {c : Char} {digit : Nat}
    (hc : Symbol.superscriptDigits.idxOf? c = some digit) :
    ∃ s' i e exponent subscript front behind d, s.typeChar c = .ok (s', .edited) ∧
      s.document.Raises i subscript front behind ∧
      (s'.document.formula.elements s.document.caret.place.list)[i]? = some e ∧
      s'.document.formula.element e = .scripts (some exponent) subscript (some exponent) ∧
      d ∈ s'.document.formula.elements exponent ∧ ¬s.document.formula.HasElement d ∧
      s'.document.formula.kind d = .atom (toString digit) ∧
      (s'.document.caret.place = ⟨s.document.caret.place.list, i + 1⟩ ↔
        subscript = none ∧ s.document.EndsExponent (toString digit) front behind) := by
  have hrest : s.document.Resting := ⟨h.valid, hs⟩
  have hdigit : digit < 10 := by
    obtain ⟨hlt, -⟩ := List.idxOf?_eq_some_iff.mp hc
    exact hlt
  obtain ⟨doc₁, hopen, i, subscript, front, behind, hopens⟩ := hrest.insertScript_opens
  obtain ⟨doc₂, htype, hrest₂, e, exponent, htypes⟩ := hopens.typeDigit hdigit
  obtain ⟨next, hstep, -⟩ := hrest₂.formula.step? (d := .right) hrest₂.caret.place
  obtain ⟨d, hd, hnew, hkind⟩ := htypes.symbol
  have hmove : doc₂.caret.move doc₂.formula .right false = .ok (doc₂.caret.answer false next) :=
    Caret.move_eq hstep
  refine ⟨{ s with document := { doc₂ with caret := (doc₂.caret.answer false next).1 } }, i, e,
    exponent, subscript, front, behind, d, ?_, hopens.raises, htypes.scripts, htypes.element, hd,
    fun hold => hnew (hopens.hasElement d hold), hkind, ?_⟩
  · unfold Session.typeChar Session.edit Typed.ofChar?
    simp only [hc, Typed.apply, hopen, htype, Document.move, hmove, bind, Except.bind]
  · rw [← hopens.endsExponent_iff]
    exact htypes.step next hstep

/-- In an empty formula the caret gets back to the baseline. -/
theorem typeChar_raised_square : ∃ s' i e exponent subscript front behind d,
    (new .standard).Reached ∧ (new .standard).document.caret.selecting = false ∧
      Symbol.superscriptDigits.idxOf? '²' = some 2 ∧
      (new .standard).typeChar '²' = .ok (s', .edited) ∧
      (new .standard).document.Raises i subscript front behind ∧
      (s'.document.formula.elements (new .standard).document.caret.place.list)[i]? = some e ∧
      s'.document.formula.element e = .scripts (some exponent) subscript (some exponent) ∧
      d ∈ s'.document.formula.elements exponent ∧ s'.document.formula.kind d = .atom "2" ∧
      s'.document.caret.place = ⟨(new .standard).document.caret.place.list, i + 1⟩ := by
  have hc : Symbol.superscriptDigits.idxOf? '²' = some 2 := rfl
  obtain ⟨s', i, e, exponent, subscript, front, behind, d, htype, hraises, hget, hx, hd, -, hkind,
    hplace⟩ := Reached.typeChar_raised (.new .standard) rfl hc
  have hnone : (new .standard).document.reusableScripts? none = none := rfl
  have hends : subscript = none ∧ (new .standard).document.EndsExponent "2" front behind := by
    cases hraises with
    | new => exact ⟨rfl, .inl ⟨fun _ => by decide +kernel, rfl⟩⟩
    | before beside | behind beside => exact absurd (hnone.symm.trans beside) nofun
  exact ⟨s', i, e, exponent, subscript, front, behind, d, .new .standard, rfl, hc, htype, hraises,
    hget, hx, hd, hkind, hplace.mpr hends⟩

/-- Behind scripts with a subscript the caret ends up in that. -/
theorem raised_digit_enters_subscript : ∃ s s', ofTex "x_\x7ba\x7d" .standard = .ok s ∧ s.Reached ∧
    s.document.caret.selecting = false ∧ Symbol.superscriptDigits.idxOf? '²' = some 2 ∧
    s.typeChar '²' = .ok (s', .edited) ∧
    s'.document.caret.place.list ≠ s.document.caret.place.list := by
  have hrun : ((ofTex "x_\x7ba\x7d" .standard).toOption.bind fun s =>
      (s.typeChar '²').toOption.map fun r => (s.document.caret, r.2, r.1.document.caret)) =
      some (.ofPlace ⟨⟨0⟩, 2⟩, .edited, .ofPlace ⟨⟨1⟩, 0⟩) := by
    decide +kernel
  cases hs : ofTex "x_\x7ba\x7d" .standard with
  | error => simp [hs, Except.toOption] at hrun
  | ok s =>
    cases htype : s.typeChar '²' with
    | error => simp [hs, htype, Except.toOption] at hrun
    | ok r =>
      simp only [hs, htype, Except.toOption, Option.bind_some, Option.map_some, Option.some.injEq,
        Prod.mk.injEq] at hrun
      obtain ⟨hcaret, hresult, hcaret'⟩ := hrun
      obtain ⟨s', result⟩ := r
      subst hresult
      refine ⟨s, s', rfl, .ofTex hs, by rw [hcaret]; rfl, rfl, htype, ?_⟩
      rw [hcaret, hcaret']
      decide

end Session

end FormulaEditor
