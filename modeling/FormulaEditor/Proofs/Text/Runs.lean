import FormulaEditor.Proofs.Text.Alike

/-!
# Runs of digits in their places

A text is made of runs of digits and of what stands between them. What is between them stays as it
is, and a run is written as a float unless the character before it claims it or a point follows. So
nothing goes across a place where neither does, and a text cut in such places is written piece by
piece.
-/

namespace FormulaEditor.Text

variable {cs ds : List Char}

/-! ## Behind a text and in front of one -/

/-- Behind what ends in no digit, only its last character counts. -/
theorem promoteFrom_behind (hcs : ∀ c ∈ cs.getLast?, c.isDigit = false) (ds : List Char) :
    promoteFrom (.outside false) (cs ++ ds) = promoteFrom (.outside false) cs ++
      promoteFrom (.outside (cs.getLast?.any gluesDigits)) ds := by
  rcases List.eq_nil_or_concat cs with rfl | ⟨front, c, rfl⟩
  · rfl
  · have hc : c.isDigit = false := hcs c (by simp)
    have hcut := promoteFrom_append_cons hc (.outside false) front ds
    simpa using hcut

/-- In front of what begins with no digit, a run of digits ends. -/
theorem promoteFrom_inside_end (hds : ∀ d ∈ ds.head?, d.isDigit = false) (bare : Bool) :
    promoteFrom (.inside bare) ds =
      (if bare = true ∧ ds.head? ≠ some '.' then ['.', '0'] else []) ++
        promoteFrom (.outside false) ds := by
  cases ds with
  | nil => cases bare <;> simp [promoteFrom]
  | cons d ds =>
    have hd : d.isDigit = false := hds d rfl
    by_cases hdot : d = '.'
    · subst hdot
      simp [promoteFrom]
    · cases bare <;> simp [promoteFrom, hd, hdot]

/-! ## A run and its neighbours -/

/-- A whole run of digits becomes a float just where nothing before it claims it and no point
follows. -/
theorem promoteIntegers_run {u digits v : String}
    (hu : ∀ c ∈ u.toList.getLast?, c.isDigit = false) (hne : digits ≠ "")
    (hdigits : ∀ d ∈ digits.toList, d.isDigit = true)
    (hv : ∀ c ∈ v.toList.head?, c.isDigit = false) :
    promoteIntegers (u ++ digits ++ v) = promoteIntegers u ++ digits ++
      (if u.toList.getLast?.any gluesDigits = false ∧ v.toList.head? ≠ some '.' then ".0" else "") ++
        promoteIntegers v := by
  have hlist : digits.toList ≠ [] := mt String.toList_eq_nil_iff.mp hne
  have hrun := promoteFrom_behind hu (digits.toList ++ v.toList)
  rw [promoteFrom_outside _ hlist hdigits, promoteFrom_inside_end hv] at hrun
  apply String.ext
  by_cases hbare : u.toList.getLast?.any gluesDigits = false ∧ v.toList.head? ≠ some '.'
  · rw [if_pos hbare]
    simpa [promoteIntegers, hbare] using hrun
  · rw [if_neg hbare]
    rw [if_neg (by simpa using hbare)] at hrun
    simpa [promoteIntegers] using hrun

/-! ## Pieces -/

theorem promoteFrom_pieces {us vs : List Char} (hus : ∀ c ∈ us.getLast?, gluesDigits c = false)
    (hvs : ∀ c ∈ vs.head?, c.isDigit = false ∧ c ≠ '.') (ps : List Char) :
    promoteFrom (.outside false) (us ++ ps ++ vs) = promoteFrom (.outside false) us ++
      promoteFrom (.outside false) ps ++ promoteFrom (.outside false) vs := by
  have hglue : us.getLast?.any gluesDigits = false := by
    cases hlast : us.getLast? with
    | none => rfl
    | some c => exact hus c hlast
  have hdigit : ∀ c ∈ us.getLast?, c.isDigit = false := by
    intro c hc
    have := hus c hc
    simp only [gluesDigits, Char.isAlphanum, Bool.or_eq_false_iff] at this
    exact this.2.2
  rw [promoteFrom_append _ _ hvs, promoteFrom_behind hdigit, hglue]

/-- Integers that are floats already stay as they are. Where the text before a cut claims no digits
and the text behind it does not go on with a number, each side is written by itself. A whole run of
digits becomes a float just where nothing before it claims it and no point follows. -/
theorem promoteIntegers_piecewise :
    (∀ s, promoteIntegers (promoteIntegers s) = promoteIntegers s) ∧
      (∀ u p v : String, (∀ c ∈ u.toList.getLast?, c.isAlphanum = false ∧ c ≠ '_' ∧ c ≠ '.') →
        (∀ c ∈ v.toList.head?, c.isDigit = false ∧ c ≠ '.') →
          promoteIntegers (u ++ p ++ v) =
            promoteIntegers u ++ promoteIntegers p ++ promoteIntegers v) ∧
      ∀ u digits v : String, (∀ c ∈ u.toList.getLast?, c.isDigit = false) → digits ≠ "" →
        (∀ d ∈ digits.toList, d.isDigit = true) → (∀ c ∈ v.toList.head?, c.isDigit = false) →
          promoteIntegers (u ++ digits ++ v) = promoteIntegers u ++ digits ++
            (if u.toList.getLast?.any gluesDigits = false ∧ v.toList.head? ≠ some '.'
              then ".0" else "") ++ promoteIntegers v := by
  refine ⟨promoteIntegers_promoteIntegers, ?_, ?_⟩
  · intro u p v hu hv
    have hclaims : ∀ c ∈ u.toList.getLast?, gluesDigits c = false := by
      intro c hc
      obtain ⟨halnum, hline, hdot⟩ := hu c hc
      simp [gluesDigits, halnum, hline, hdot]
    have hpieces := promoteFrom_pieces hclaims hv p.toList
    apply String.ext
    simpa [promoteIntegers] using hpieces
  · intro u digits v hu hne hdigits hv
    exact promoteIntegers_run hu hne hdigits hv

/-- An integer is cut off in front of a name, and the digit of another name stays with it. -/
theorem promoteIntegers_piecewise_of_names :
    ((∀ c ∈ "3*".toList.getLast?, c.isAlphanum = false ∧ c ≠ '_' ∧ c ≠ '.') ∧
      (∀ c ∈ "x4".toList.head?, c.isDigit = false ∧ c ≠ '.') ∧
      promoteIntegers ("3*" ++ "sum0+12" ++ "x4") =
        promoteIntegers "3*" ++ promoteIntegers "sum0+12" ++ promoteIntegers "x4") ∧
      ((∀ c ∈ "3*sum0+".toList.getLast?, c.isDigit = false) ∧ "12" ≠ "" ∧
        (∀ d ∈ "12".toList, d.isDigit = true) ∧
        (∀ c ∈ "x4".toList.head?, c.isDigit = false) ∧
        promoteIntegers ("3*sum0+" ++ "12" ++ "x4") =
          promoteIntegers "3*sum0+" ++ "12" ++ ".0" ++ promoteIntegers "x4") := by
  obtain ⟨-, hpieces, hrun⟩ := promoteIntegers_piecewise
  have hu : ∀ c ∈ "3*".toList.getLast?, c.isAlphanum = false ∧ c ≠ '_' ∧ c ≠ '.' := by simp
  have hv : ∀ c ∈ "x4".toList.head?, c.isDigit = false ∧ c ≠ '.' := by simp
  have hbefore : ∀ c ∈ "3*sum0+".toList.getLast?, c.isDigit = false := by simp
  have hdigits : ∀ d ∈ "12".toList, d.isDigit = true := by simp
  have hbehind : ∀ c ∈ "x4".toList.head?, c.isDigit = false := by simp
  exact ⟨⟨hu, hv, hpieces "3*" "sum0+12" "x4" hu hv⟩, hbefore, by decide, hdigits, hbehind,
    hrun "3*sum0+" "12" "x4" hbefore (by decide) hdigits hbehind⟩

end FormulaEditor.Text
