import FormulaEditor.Unicode.CodeRanges

/-!
# Checking characters

What is said of all characters of a text is checked on those it has, not on all there are, and what
is said of ranges of characters on each character in them. A character that a text has comes first
in one place.
-/

namespace FormulaEditor.Text

instance decidableForallMem {p : Char → Prop} [DecidablePred p] (cs : List Char) :
    Decidable (∀ c ∈ cs, p c) :=
  List.decidableBAll p cs

/-- What holds of the characters of some ranges, one by one, holds of all of them. -/
theorem of_contains {ranges : Unicode.CodeRanges} {p : Char → Prop} {c : Char}
    (hp : ∀ r ∈ ranges, ∀ n < r.2 + 1 - r.1, p (Char.ofNat (r.1 + n)))
    (h : ranges.contains c = true) : p c := by
  simp only [Unicode.CodeRanges.contains, List.any_eq_true, Bool.and_eq_true,
    decide_eq_true_eq] at h
  obtain ⟨r, hr, hle, hge⟩ := h
  have := hp r hr (c.toNat - r.1) (by omega)
  rwa [Nat.add_sub_cancel' hle, Char.ofNat_toNat] at this

/-- What holds of the ten digits holds of every digit. -/
theorem of_isDigit {p : Char → Prop} {c : Char} (hp : ∀ n < 10, p (Char.ofNat ('0'.toNat + n)))
    (h : c.isDigit = true) : p c := by
  obtain ⟨hle, hge⟩ : 48 ≤ c.val ∧ c.val ≤ 57 := by simpa [Char.isDigit] using h
  replace hle : 48 ≤ c.toNat := UInt32.le_iff_toNat_le.mp hle
  replace hge : c.toNat ≤ 57 := UInt32.le_iff_toNat_le.mp hge
  have hc : p (Char.ofNat (48 + (c.toNat - 48))) := hp (c.toNat - 48) (by omega)
  rwa [Nat.add_sub_cancel' hle, Char.ofNat_toNat] at hc

/-- The first place of a character divides a text in one way. -/
theorem append_cons_inj {c : Char} {front front' rest rest' : List Char} (h : c ∉ front)
    (h' : c ∉ front') (heq : front ++ c :: rest = front' ++ c :: rest') :
    front = front' ∧ rest = rest' := by
  induction front generalizing front' with
  | nil =>
    cases front' with
    | nil => exact ⟨rfl, List.tail_eq_of_cons_eq heq⟩
    | cons d front' => exact absurd (List.head_eq_of_cons_eq heq) (List.ne_of_not_mem_cons h')
  | cons d front ih =>
    cases front' with
    | nil => exact absurd (List.head_eq_of_cons_eq heq).symm (List.ne_of_not_mem_cons h)
    | cons d' front' =>
      obtain ⟨rfl, htail⟩ := List.cons_eq_cons.mp heq
      obtain ⟨rfl, hrest⟩ := ih (List.not_mem_of_not_mem_cons h) (List.not_mem_of_not_mem_cons h')
        htail
      exact ⟨rfl, hrest⟩

end FormulaEditor.Text
