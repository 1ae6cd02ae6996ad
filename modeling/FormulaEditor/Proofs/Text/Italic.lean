import FormulaEditor.Text.Italic

/-!
# Into italics and back

Taking a letter out of italics gives the same letter whether it was put into italics before or not.
-/

namespace FormulaEditor.Text

/-- A character belongs to an alphabet of at most 26 letters that starts at the code point. -/
def InAlphabet (c : Char) (start : Nat) : Prop :=
  start ≤ c.toNat ∧ c.toNat < start + 26

/-- What holds of 26 characters from some code points on holds of every character there. -/
theorem of_inAlphabet {p : Char → Prop} {starts : List Nat} {c : Char} {start : Nat}
    (hp : ∀ start ∈ starts, ∀ n < 26, p (Char.ofNat (start + n))) (hs : start ∈ starts)
    (hc : InAlphabet c start) : p c := by
  obtain ⟨hle, hlt⟩ := hc
  have := hp start hs (c.toNat - start) (by omega)
  rwa [Nat.add_sub_cancel' hle, Char.ofNat_toNat] at this

/-- Outside the plain alphabets no character has an italic form. -/
theorem italic_of_not_inAlphabet {c : Char}
    (h : ∀ start ∈ ['a'.toNat, 'A'.toNat, plainGreek], ¬InAlphabet c start) : italic c = c := by
  simp only [List.forall_mem_cons, InAlphabet] at h
  obtain ⟨hsmall, hcapital, hgreek, -⟩ := h
  have hlow : c.isLower = false := by
    change (decide ('a'.val ≤ c.val) && decide (c.val ≤ 'z'.val)) = false
    simp [UInt32.le_iff_toNat_le] at hsmall ⊢
    omega
  have hup : c.isUpper = false := by
    change decide ('A'.val ≤ c.val ∧ c.val ≤ 'Z'.val) = false
    simp [UInt32.le_iff_toNat_le] at hcapital ⊢
    omega
  have hh : c ≠ 'h' := by
    rintro rfl
    simp at hsmall
  have hspan : greekSpan ≤ 26 := by decide
  simp only [italic, hh, hlow, hup, ↓reduceIte, Bool.false_eq_true, Bool.and_eq_true,
    decide_eq_true_eq]
  rw [if_neg]
  omega

/-- Outside the italic alphabets every character is plain. -/
theorem plain_of_not_inAlphabet {c : Char} (hh : c ≠ 'ℎ')
    (h : ∀ start ∈ [italicSmall, italicCapital, italicGreek], ¬InAlphabet c start) :
    plain c = c := by
  simp only [List.forall_mem_cons, InAlphabet] at h
  obtain ⟨hsmall, hcapital, hgreek, -⟩ := h
  have hspan : greekSpan ≤ 26 := by decide
  simp only [plain, hh, ↓reduceIte, Bool.and_eq_true, decide_eq_true_eq]
  rw [if_neg, if_neg, if_neg] <;> omega

theorem plain_italic (c : Char) : plain (italic c) = plain c := by
  by_cases h : ∃ start ∈ ['a'.toNat, 'A'.toNat, plainGreek], InAlphabet c start
  · obtain ⟨start, hs, hc⟩ := h
    exact of_inAlphabet (p := fun c => plain (italic c) = plain c) (by decide +kernel) hs hc
  · rw [italic_of_not_inAlphabet fun start hs hc => h ⟨start, hs, hc⟩]

theorem plain_plain (c : Char) : plain (plain c) = plain c := by
  by_cases hh : c = 'ℎ'
  · subst hh
    rfl
  by_cases h : ∃ start ∈ [italicSmall, italicCapital, italicGreek], InAlphabet c start
  · obtain ⟨start, hs, hc⟩ := h
    exact of_inAlphabet (p := fun c => plain (plain c) = plain c) (by decide +kernel) hs hc
  · have := plain_of_not_inAlphabet hh fun start hs hc => h ⟨start, hs, hc⟩
    rw [this, this]

/-- What no italic letter reads as is read from itself alone. -/
theorem eq_of_plain_eq {c d : Char} (hh : d ≠ 'h')
    (hd : ∀ start ∈ [italicSmall, italicCapital, italicGreek], ∀ n < 26,
      plain (Char.ofNat (start + n)) ≠ d) (h : plain c = d) : c = d := by
  by_cases hc : c = 'ℎ'
  · subst hc
    exact absurd h.symm hh
  rw [← h]
  refine (plain_of_not_inAlphabet hc fun start hs hin => ?_).symm
  exact of_inAlphabet (p := fun c => plain c ≠ d) hd hs hin h

@[simp] theorem unitalicize_italicize (s : String) :
    unitalicize (italicize s) = unitalicize s := by
  simp [unitalicize, italicize, Function.comp_def, plain_italic]

@[simp] theorem unitalicize_unitalicize (s : String) :
    unitalicize (unitalicize s) = unitalicize s := by
  simp [unitalicize, Function.comp_def, plain_plain]

end FormulaEditor.Text
