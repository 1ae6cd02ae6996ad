import FormulaEditor.Proofs.Text.Characters
import FormulaEditor.Proofs.Text.Numeral
import FormulaEditor.Text.Blank
import Mathlib.Data.List.Forall2
import Mathlib.Data.List.Induction
import Mathlib.Data.List.TakeWhile

/-!
# Texts that are alike

Two texts are alike if no text around them tells them apart once its integers are written as floats.
A text whose integers are floats already is alike the text it came from, wherever signs stand on
either side of it: writing integers as floats twice is writing them as floats once.
-/

namespace FormulaEditor.Text

variable {s t s' t' : String} {c d : Char} {cs : List Char} {state : NumeralState}

/-! ## Floats stay as they are -/

theorem promoteFrom_promoteFrom (state : NumeralState) (cs : List Char) :
    promoteFrom state (promoteFrom state cs) = promoteFrom state cs := by
  induction cs generalizing state with
  | nil =>
    by_cases hs : state = .inside true
    · subst hs
      rfl
    · rw [promoteFrom_nil hs, promoteFrom_nil hs]
  | cons c cs ih =>
    by_cases hc : c.isDigit = true
    · simp [promoteFrom, hc, ih]
    · by_cases hs : (state = .inside true && c != '.') = true
      · -- Behind the point that is written, digits are not bare, and `c` ends them in either case.
        have hdot : ('.' : Char).isDigit = false := rfl
        have hzero : ('0' : Char).isDigit = true := rfl
        have hglue : gluesDigits '.' = true := rfl
        obtain ⟨rfl, hne⟩ : state = .inside true ∧ c ≠ '.' := by simpa using hs
        simp [promoteFrom, hc, hne, hdot, hzero, hglue, NumeralState.afterDigit, ih]
      · rw [promoteFrom, if_neg hc, if_neg hs, promoteFrom, if_neg hc, if_neg hs, ih]

@[simp] theorem promoteIntegers_promoteIntegers (s : String) :
    promoteIntegers (promoteIntegers s) = promoteIntegers s := by
  simp [promoteIntegers, promoteFrom_promoteFrom]

/-- Writing floats only adds characters. -/
theorem sublist_promoteFrom (state : NumeralState) (cs : List Char) :
    List.Sublist cs (promoteFrom state cs) := by
  induction cs generalizing state with
  | nil => exact List.nil_sublist _
  | cons c cs ih =>
    obtain ⟨next, h | ⟨-, h⟩⟩ := promoteFrom_cons state c
    · rw [h]
      exact (ih next).cons_cons c
    · rw [h]
      exact (((ih next).cons_cons c).cons '0').cons '.'

theorem promoteIntegers_eq_empty_iff : promoteIntegers s = "" ↔ s = "" := by
  constructor
  · intro h
    have hsub := sublist_promoteFrom (.outside false) s.toList
    have hnil : promoteFrom (.outside false) s.toList = [] := by
      simpa [promoteIntegers] using congrArg String.toList h
    rw [hnil, List.sublist_nil] at hsub
    exact String.toList_eq_nil_iff.mp hsub
  · rintro rfl
    rfl

/-- A sign alone comes from itself alone. -/
theorem promoteIntegers_eq_singleton_iff (hc : isBreak c = true) :
    promoteIntegers s = String.singleton c ↔ s = String.singleton c := by
  constructor
  · intro h
    have hsub := sublist_promoteFrom (.outside false) s.toList
    have hsign : promoteFrom (.outside false) s.toList = [c] := by
      simpa [promoteIntegers] using congrArg String.toList h
    rw [hsign] at hsub
    obtain hnil | hs := List.sublist_cons_iff.mp hsub
    · rw [List.sublist_nil.mp hnil] at hsign
      cases hsign
    · obtain ⟨rest, hs, hrest⟩ := hs
      rw [List.sublist_nil.mp hrest] at hs
      apply String.ext
      simpa using hs
  · rintro rfl
    have hempty : promoteIntegers "" = "" := rfl
    simpa [hempty] using promoteIntegers_break hc "" ""

/-! ## Texts no context tells apart -/

/-- Whatever stands around the texts, with its integers as floats it is the same. -/
def Alike (s t : String) : Prop :=
  ∀ before behind, promoteIntegers (before ++ s ++ behind) = promoteIntegers (before ++ t ++ behind)

namespace Alike

@[refl] theorem refl (s : String) : Alike s s := fun _ _ => rfl

theorem append (h : Alike s t) (h' : Alike s' t') : Alike (s ++ s') (t ++ t') := by
  intro before behind
  have hfirst := h before (s' ++ behind)
  have hsecond := h' (before ++ t) behind
  simp only [String.append_assoc] at hfirst hsecond ⊢
  exact hfirst.trans hsecond

theorem promoteIntegers_eq (h : Alike s t) : promoteIntegers s = promoteIntegers t := by
  simpa using h "" ""

theorem isEmpty_eq (h : Alike s t) : s.isEmpty = t.isEmpty := by
  rw [Bool.eq_iff_iff, String.isEmpty_iff, String.isEmpty_iff, ← promoteIntegers_eq_empty_iff,
    h.promoteIntegers_eq, promoteIntegers_eq_empty_iff]

theorem eq_singleton_iff (h : Alike s t) (hc : isBreak c = true) :
    s = String.singleton c ↔ t = String.singleton c := by
  rw [← promoteIntegers_eq_singleton_iff hc, h.promoteIntegers_eq,
    promoteIntegers_eq_singleton_iff hc]

/-- Concatenations of texts that are alike one by one. -/
theorem join {ss ts : List String} (h : List.Forall₂ Alike ss ts) :
    Alike (String.join ss) (String.join ts) := by
  induction h with
  | nil => exact refl _
  | cons hst _ ih =>
    rw [String.join_cons, String.join_cons]
    exact hst.append ih

end Alike

/-- Between separators, a text may have its integers written as floats or not. -/
theorem alike_between (hs : isSeparator s = true) (ht : isSeparator t = true) (u : String) :
    Alike (s ++ promoteIntegers u ++ t) (s ++ u ++ t) := by
  have hsplit : ∀ before behind u, promoteIntegers (before ++ (s ++ u ++ t) ++ behind) =
      promoteIntegers before ++ s ++ promoteIntegers u ++ t ++ promoteIntegers behind := by
    intro before behind u
    simp only [← String.append_assoc, promoteIntegers_separator hs, promoteIntegers_separator ht]
  intro before behind
  rw [hsplit, hsplit, promoteIntegers_promoteIntegers]

/-! ## Blanks at the ends -/

theorem isBreak_of_isWhitespace (h : Unicode.isWhitespace c = true) : isBreak c = true :=
  of_contains (p := fun c => isBreak c = true) (by decide +kernel) h

/-- A sign behind a text stays behind it. -/
theorem promoteFrom_concat (hc : isBreak c = true) (state : NumeralState) (cs : List Char) :
    promoteFrom state (cs ++ [c]) = promoteFrom state cs ++ [c] :=
  promoteFrom_break hc state cs []

theorem dropWhile_isWhitespace_promoteFrom (cs : List Char) :
    (promoteFrom (.outside false) cs).dropWhile Unicode.isWhitespace =
      promoteFrom (.outside false) (cs.dropWhile Unicode.isWhitespace) := by
  induction cs with
  | nil => rfl
  | cons c cs ih =>
    cases hblank : Unicode.isWhitespace c with
    | true =>
      have hfirst : promoteFrom (.outside false) (c :: cs) = c :: promoteFrom (.outside false) cs :=
        promoteFrom_break (isBreak_of_isWhitespace hblank) (.outside false) [] cs
      rw [hfirst, List.dropWhile_cons_of_pos hblank, List.dropWhile_cons_of_pos hblank, ih]
    | false =>
      obtain ⟨next, hfirst | ⟨hstate, -⟩⟩ := promoteFrom_cons (.outside false) c
      · rw [List.dropWhile_cons_of_neg (by simp [hblank]), hfirst,
          List.dropWhile_cons_of_neg (by simp [hblank])]
      · cases hstate

/-- A text that is written with floats ends as it did, or in a float. -/
theorem promoteFrom_append_singleton (state : NumeralState) (cs : List Char) (c : Char) :
    ∃ before d, promoteFrom state (cs ++ [c]) = before ++ [d] ∧ (d = c ∨ d = '0') := by
  have hend : ∀ state, ∃ before d, c :: promoteFrom state [] = before ++ [d] ∧ (d = c ∨ d = '0') := by
    intro state
    by_cases hs : state = .inside true
    · subst hs
      exact ⟨[c, '.'], '0', rfl, .inr rfl⟩
    · exact ⟨[], c, by rw [promoteFrom_nil hs]; rfl, .inl rfl⟩
  induction cs generalizing state with
  | nil =>
    obtain ⟨next, h | ⟨-, h⟩⟩ := promoteFrom_cons state c
    · rw [List.nil_append, h]
      exact hend next
    · obtain ⟨before, d, hwritten, hd⟩ := hend next
      exact ⟨'.' :: '0' :: before, d, by rw [List.nil_append, h, hwritten]; rfl, hd⟩
  | cons e cs ih =>
    obtain ⟨next, h | ⟨-, h⟩⟩ := promoteFrom_cons state e
    all_goals obtain ⟨before, d, hwritten, hd⟩ := ih next
    · exact ⟨e :: before, d, by rw [List.cons_append, h, hwritten]; rfl, hd⟩
    · exact ⟨'.' :: '0' :: e :: before, d, by rw [List.cons_append, h, hwritten]; rfl, hd⟩

theorem trimEnd_append_singleton (cs : List Char) (c : Char) : trimEnd (cs ++ [c]) =
    if Unicode.isWhitespace c then trimEnd cs else cs ++ [c] := by
  unfold trimEnd
  rw [List.reverse_append, List.reverse_singleton, List.singleton_append, List.dropWhile_cons]
  split <;> simp

theorem trimEnd_promoteFrom (state : NumeralState) (cs : List Char) :
    trimEnd (promoteFrom state cs) = promoteFrom state (trimEnd cs) := by
  induction cs using List.reverseRecOn with
  | nil =>
    have hnil : trimEnd [] = [] := rfl
    rw [hnil]
    by_cases hs : state = .inside true
    · subst hs
      decide
    · rw [promoteFrom_nil hs]
      rfl
  | append_singleton cs c ih =>
    rw [trimEnd_append_singleton]
    split
    · rename_i hblank
      rw [promoteFrom_concat (isBreak_of_isWhitespace hblank), trimEnd_append_singleton,
        if_pos hblank, ih]
    · rename_i hblank
      obtain ⟨before, d, hwritten, hd⟩ := promoteFrom_append_singleton state cs c
      have hlast : Unicode.isWhitespace d = false := by
        obtain rfl | rfl := hd
        · simpa using hblank
        · decide
      rw [hwritten, trimEnd_append_singleton, hlast]
      rfl

/-- Blanks at the ends are cut off before integers are written as floats or after. -/
theorem trim_promoteFrom (cs : List Char) : trim (promoteFrom (.outside false) cs) =
    promoteFrom (.outside false) (trim cs) := by
  rw [trim, dropWhile_isWhitespace_promoteFrom, trimEnd_promoteFrom]
  rfl

theorem mem_promoteFrom {e : Char} (h : e ∈ promoteFrom state cs) : e ∈ cs ∨ e = '.' ∨ e = '0' := by
  induction cs generalizing state with
  | nil =>
    by_cases hs : state = .inside true
    · subst hs
      simpa [promoteFrom] using h
    · rw [promoteFrom_nil hs] at h
      exact .inl h
  | cons c cs ih =>
    obtain ⟨next, hwritten | ⟨-, hwritten⟩⟩ := promoteFrom_cons state c
    all_goals
      have hmem : e ∈ promoteFrom next cs → e ∈ cs ∨ e = '.' ∨ e = '0' := ih
      simp only [hwritten, List.mem_cons] at h ⊢
      tauto

/-- Floats have no signs, so the text before the first one is found before or after. -/
theorem takeWhile_promoteFrom (hc : isBreak c = true) (state : NumeralState) (cs : List Char) :
    (promoteFrom state cs).takeWhile (· != c) = promoteFrom state (cs.takeWhile (· != c)) := by
  have hfloat : ('.' != c) = true ∧ ('0' != c) = true := by
    constructor
    all_goals
      refine bne_iff_ne.mpr ?_
      rintro rfl
      cases hc
  have hfree : ∀ e ∈ promoteFrom state (cs.takeWhile (· != c)), (e != c) = true := by
    intro e he
    obtain he | rfl | rfl := mem_promoteFrom he
    · exact List.mem_takeWhile_imp (p := (· != c)) he
    · exact hfloat.1
    · exact hfloat.2
  have hsplit := List.takeWhile_append_dropWhile (p := (· != c)) (l := cs)
  cases hrest : cs.dropWhile (· != c) with
  | nil =>
    rw [hrest, List.append_nil] at hsplit
    rw [hsplit] at hfree ⊢
    exact List.takeWhile_eq_self_iff.mpr hfree
  | cons e rest =>
    have he : e = c := by
      have := List.head?_dropWhile_not (· != c) cs
      simpa [hrest] using this
    rw [hrest, he] at hsplit
    conv_lhs => rw [← hsplit, promoteFrom_break hc]
    rw [List.takeWhile_append_of_pos hfree, List.takeWhile_cons_of_neg (by simp), List.append_nil]

end FormulaEditor.Text
