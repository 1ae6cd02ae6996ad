import FormulaEditor.Text.Numeral

/-!
# Numerals on either side of a cut

In front of a text that does not go on with a numeral, and behind a character that is no digit,
integers are written as floats whatever stands on the other side. A character that belongs to no
name or number does both, and so does a text between two such characters.
-/

namespace FormulaEditor.Text

/-- Whether the character ends a numeral and does not begin one. -/
def isBreak (c : Char) : Bool :=
  !c.isDigit && !gluesDigits c

theorem promoteFrom_nil {state : NumeralState} (h : state ≠ .inside true) :
    promoteFrom state [] = [] := by
  rw [promoteFrom]
  exact h

/-- A character is written after a point and a zero, if it ends a bare integer, or else as it is,
whatever follows. -/
theorem promoteFrom_cons (state : NumeralState) (c : Char) :
    ∃ next, (∀ cs, promoteFrom state (c :: cs) = c :: promoteFrom next cs) ∨
      state = .inside true ∧
        ∀ cs, promoteFrom state (c :: cs) = '.' :: '0' :: c :: promoteFrom next cs := by
  by_cases hc : c.isDigit = true
  · exact ⟨state.afterDigit, .inl fun cs => by rw [promoteFrom, if_pos hc]⟩
  · by_cases hs : (state = .inside true && c != '.') = true
    · refine ⟨.outside (gluesDigits c), .inr ⟨?_, fun cs => ?_⟩⟩
      · exact of_decide_eq_true (Bool.and_eq_true_iff.mp hs).1
      · rw [promoteFrom, if_neg hc, if_pos hs]
    · refine ⟨.outside (gluesDigits c), .inl fun cs => ?_⟩
      rw [promoteFrom, if_neg hc, if_neg hs]

/-! ## Cuts -/

/-- What does not go on with a numeral has no part in those before it. -/
theorem promoteFrom_append (state : NumeralState) (cs : List Char) {ds : List Char}
    (hds : ∀ d ∈ ds.head?, d.isDigit = false ∧ d ≠ '.') :
    promoteFrom state (cs ++ ds) = promoteFrom state cs ++ promoteFrom (.outside false) ds := by
  induction cs generalizing state with
  | nil =>
    cases ds with
    | nil => simp [promoteFrom]
    | cons d ds =>
      obtain ⟨hdigit, hdot⟩ := hds d rfl
      by_cases hs : state = .inside true
      · subst hs
        simp [promoteFrom, hdigit, hdot]
      · simp [promoteFrom, hdigit, hs, promoteFrom_nil hs]
  | cons c cs ih =>
    obtain ⟨next, hstep | ⟨-, hstep⟩⟩ := promoteFrom_cons state c
    all_goals simp only [List.cons_append, hstep, ih]

/-- Behind a character that is no digit, only that character counts. -/
theorem promoteFrom_append_cons {c : Char} (hc : c.isDigit = false) (state : NumeralState)
    (cs ds : List Char) : promoteFrom state (cs ++ c :: ds) =
      promoteFrom state (cs ++ [c]) ++ promoteFrom (.outside (gluesDigits c)) ds := by
  induction cs generalizing state with
  | nil =>
    simp only [List.nil_append, promoteFrom, hc, Bool.false_eq_true, ↓reduceIte]
    split <;> rfl
  | cons d cs ih =>
    obtain ⟨next, hstep | ⟨-, hstep⟩⟩ := promoteFrom_cons state d
    all_goals simp only [List.cons_append, hstep, ih]

theorem promoteFrom_break {c : Char} (hc : isBreak c = true) (state : NumeralState)
    (cs ds : List Char) :
    promoteFrom state (cs ++ c :: ds) =
      promoteFrom state cs ++ c :: promoteFrom (.outside false) ds := by
  obtain ⟨hdigit, hglue⟩ : c.isDigit = false ∧ gluesDigits c = false := by
    simpa [isBreak] using hc
  have hdot : c ≠ '.' := by
    rintro rfl
    simp [gluesDigits] at hglue
  have hlone : promoteFrom (.outside false) [c] = [c] := by simp [promoteFrom, hdigit]
  calc promoteFrom state (cs ++ c :: ds)
      = promoteFrom state (cs ++ [c]) ++ promoteFrom (.outside (gluesDigits c)) ds :=
        promoteFrom_append_cons hdigit state cs ds
    _ = (promoteFrom state cs ++ [c]) ++ promoteFrom (.outside false) ds := by
        rw [promoteFrom_append state cs (by simp [hdigit, hdot]), hlone, hglue]
    _ = promoteFrom state cs ++ c :: promoteFrom (.outside false) ds := by simp

theorem promoteIntegers_break {c : Char} (hc : isBreak c = true) (s t : String) :
    promoteIntegers (s ++ String.singleton c ++ t) =
      promoteIntegers s ++ String.singleton c ++ promoteIntegers t := by
  have h := promoteFrom_break hc (.outside false) s.toList t.toList
  apply String.ext
  simpa [promoteIntegers] using h

/-! ## Runs of digits -/

/-- Digits are passed over one by one. -/
theorem promoteFrom_inside (bare : Bool) {ds : List Char} (h : ∀ d ∈ ds, d.isDigit = true)
    (rest : List Char) :
    promoteFrom (.inside bare) (ds ++ rest) = ds ++ promoteFrom (.inside bare) rest := by
  induction ds with
  | nil => rfl
  | cons d ds ih =>
    obtain ⟨hd, hds⟩ := List.forall_mem_cons.mp h
    have hstep : promoteFrom (.inside bare) (d :: (ds ++ rest)) =
        d :: promoteFrom (.inside bare) (ds ++ rest) := by
      rw [promoteFrom, if_pos hd, NumeralState.afterDigit]
    rw [List.cons_append, hstep, ih hds, List.cons_append]

/-- The first of several digits decides whether they are an integer of their own. -/
theorem promoteFrom_outside (glued : Bool) {ds : List Char} (hne : ds ≠ [])
    (h : ∀ d ∈ ds, d.isDigit = true) (rest : List Char) :
    promoteFrom (.outside glued) (ds ++ rest) = ds ++ promoteFrom (.inside (!glued)) rest := by
  cases ds with
  | nil => exact absurd rfl hne
  | cons d ds =>
    obtain ⟨hd, hds⟩ := List.forall_mem_cons.mp h
    have hstep : promoteFrom (.outside glued) (d :: (ds ++ rest)) =
        d :: promoteFrom (.inside (!glued)) (ds ++ rest) := by
      rw [promoteFrom, if_pos hd, NumeralState.afterDigit]
    rw [List.cons_append, hstep, promoteFrom_inside _ hds, List.cons_append]

/-! ## Separators -/

/-- Whether the text begins and ends with such a character, and has no bare integers. -/
def isSeparator (s : String) : Bool :=
  s.toList.head?.any isBreak && s.toList.getLast?.any isBreak && promoteIntegers s == s

theorem promoteFrom_separator {s : String} (h : isSeparator s = true) (state : NumeralState)
    (cs ds : List Char) : promoteFrom state (cs ++ s.toList ++ ds) =
      promoteFrom state cs ++ s.toList ++ promoteFrom (.outside false) ds := by
  simp only [isSeparator, Bool.and_eq_true, beq_iff_eq] at h
  obtain ⟨⟨hfirst, hlast⟩, hs⟩ := h
  replace hs : promoteFrom (.outside false) s.toList = s.toList := by
    simpa [promoteIntegers] using congrArg String.toList hs
  generalize s.toList = word at hfirst hlast hs ⊢
  obtain _ | ⟨c, rest⟩ := word
  · simp at hfirst
  · have hc : isBreak c = true := hfirst
    rcases List.eq_nil_or_concat rest with rfl | ⟨middle, d, rfl⟩
    · simpa using promoteFrom_break hc state cs ds
    · have hd : isBreak d = true := by simpa [List.getLast?_cons] using hlast
      have hmiddle : promoteFrom (.outside false) middle = middle := by
        have hfirst : promoteFrom (.outside false) (c :: (middle ++ [d])) =
            c :: promoteFrom (.outside false) (middle ++ [d]) :=
          promoteFrom_break hc (.outside false) [] _
        have hlast : promoteFrom (.outside false) (middle ++ [d]) =
            promoteFrom (.outside false) middle ++ [d] :=
          promoteFrom_break hd (.outside false) middle []
        rw [List.concat_eq_append, hfirst, hlast] at hs
        simpa using hs
      have hwhole := promoteFrom_break hc state cs (middle ++ d :: ds)
      rw [promoteFrom_break hd, hmiddle] at hwhole
      simpa using hwhole

theorem promoteIntegers_separator {s : String} (h : isSeparator s = true) (before behind : String) :
    promoteIntegers (before ++ s ++ behind) =
      promoteIntegers before ++ s ++ promoteIntegers behind := by
  apply String.ext
  simpa [promoteIntegers] using promoteFrom_separator h (.outside false) before.toList behind.toList

theorem promoteIntegers_append_separator {s : String} (h : isSeparator s = true) (before : String) :
    promoteIntegers (before ++ s) = promoteIntegers before ++ s := by
  have hempty : promoteIntegers "" = "" := rfl
  simpa [hempty] using promoteIntegers_separator h before ""

end FormulaEditor.Text
