import FormulaEditor.Proofs.Row.Shape

/-!
# Which assignments are sliders

A numeral that is assigned to an identifier is a slider, unless the identifier is the name of an
axis. What finite floats are written as are such numerals.
-/

namespace FormulaEditor

namespace Decimal

variable {cs : List Char}

theorem IsUnsigned.isMagnitude (h : IsUnsigned cs) : Row.IsMagnitude cs := by
  cases h with
  | whole h => exact .whole h
  | point h hp => exact .point h.2 hp

/-- A plain numeral has the shape of a slider's value. -/
theorem IsPlain.isNumeral (h : IsPlain cs) : Row.IsNumeral cs := by
  cases h with
  | positive h => exact .unsigned h.isMagnitude
  | negative h => exact .signed (.inr rfl) h.isMagnitude

theorem IsPlain.head_ne {c : Char} (h : IsPlain cs) (hc : c.isDigit = false) (hminus : c ≠ '-') :
    cs.head? ≠ some c := by
  cases h with
  | positive h =>
    obtain ⟨d, rest, rfl, hd⟩ := h.exists_cons
    intro heq
    rw [Option.some.inj heq, hc] at hd
    cases hd
  | negative h => simpa using Ne.symm hminus

end Decimal

namespace Row

variable {name number : List Char}

/-- A plain numeral assigned to an identifier that names no axis is a slider with that value. -/
theorem classify_slider {body : String} {x : Float} (hname : IsName name)
    (haxis : ∀ axis : Axis, name ≠ axis.name.toList) (hnumber : Decimal.IsPlain number)
    (hread : Decimal.read? (String.ofList number) = some x) :
    classify ⟨body, String.ofList (name ++ '=' :: number)⟩ = slider (String.ofList name) x := by
  have hassigns : Assigns (name ++ '=' :: number) name number :=
    ⟨⟨0, by simp⟩, fun hc => (hname.ne _ hc).1 rfl,
      fun hc => (hname.ne _ (List.mem_of_getLast? hc)).2.1 rfl⟩
  have hline : '\n' ∉ name ++ '=' :: number := by
    have hfront : '\n' ∉ name := fun hc => (hname.ne _ hc).2.2 rfl
    simp [hfront, hnumber.isNumeral.newline_not_mem]
  have hspaces : number.dropWhile (· == ' ') = number :=
    dropWhile_space 0 (hnumber.head_ne (by decide) (by decide))
  generalize htext : String.ofList (name ++ '=' :: number) = text
  have hlist : text.toList = name ++ '=' :: number := by rw [← htext, String.toList_ofList]
  rw [← hlist] at hassigns hline
  have hshape : Shape ⟨body, text⟩ (slider (String.ofList name) x) :=
    .slider hline hassigns haxis hname (by rw [hspaces]; exact hnumber.isNumeral)
      (by rw [hspaces]; exact hread)
  exact hshape.classify_eq

end Row

end FormulaEditor
