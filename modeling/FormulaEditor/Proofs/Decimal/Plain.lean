import FormulaEditor.Decimal.Display
import FormulaEditor.Decimal.Reading
import FormulaEditor.Proofs.Text.Characters
import FormulaEditor.Proofs.Text.Numeral
import Mathlib.Data.List.TakeWhile

/-!
# Plain numerals

A plain numeral is what a finite float is written as: digits, maybe a point with more digits behind
it, and maybe a minus in front. Each names a float, and writing its integers as floats makes it
another plain numeral that names the same one.
-/

namespace FormulaEditor.Decimal

/-- One digit or more. -/
def IsDigits (cs : List Char) : Prop :=
  cs ≠ [] ∧ ∀ c ∈ cs, c.isDigit = true

/-- Digits, and maybe a point with digits behind it. -/
inductive IsUnsigned : List Char → Prop
  | whole {ds : List Char} (h : IsDigits ds) : IsUnsigned ds
  | point {ds places : List Char} (h : IsDigits ds) (hp : IsDigits places) :
    IsUnsigned (ds ++ '.' :: places)

/-- An unsigned numeral, or one behind a minus. -/
inductive IsPlain : List Char → Prop
  | positive {cs : List Char} (h : IsUnsigned cs) : IsPlain cs
  | negative {cs : List Char} (h : IsUnsigned cs) : IsPlain ('-' :: cs)

variable {cs ds places rest : List Char} {c : Char}

theorem IsDigits.append (h : IsDigits ds) (hp : ∀ c ∈ places, c.isDigit = true) :
    IsDigits (ds ++ places) := by
  refine ⟨by simp [h.1], fun c hc => ?_⟩
  exact (List.mem_append.mp hc).elim (h.2 c) (hp c)

theorem isDigits_toDigits (n : Nat) : IsDigits (Nat.toDigits 10 n) :=
  ⟨Nat.toDigits_ne_nil, fun _ hc => Nat.isDigit_of_mem_toDigits (by decide) (by decide) hc⟩

/-- An unsigned numeral begins with a digit. -/
theorem IsUnsigned.exists_cons (h : IsUnsigned cs) :
    ∃ c rest, cs = c :: rest ∧ c.isDigit = true := by
  have hfirst : ∀ {ds}, IsDigits ds → ∃ c rest, ds = c :: rest ∧ c.isDigit = true := by
    rintro (_ | ⟨c, rest⟩) ⟨hne, hds⟩
    · exact absurd rfl hne
    · exact ⟨c, rest, rfl, hds c (by simp)⟩
  cases h with
  | whole h => exact hfirst h
  | point h =>
    obtain ⟨c, rest, rfl, hc⟩ := hfirst h
    exact ⟨c, _, rfl, hc⟩

/-- An unsigned numeral is made of digits and a point. -/
theorem IsUnsigned.isDigit_or_point (h : IsUnsigned cs) : ∀ c ∈ cs, c.isDigit = true ∨ c = '.' := by
  cases h with
  | whole h => exact fun c hc => .inl (h.2 c hc)
  | point h hp =>
    intro c hc
    obtain hc | rfl | hc : c ∈ _ ∨ c = '.' ∨ c ∈ _ := by simpa using hc
    · exact .inl (h.2 c hc)
    · exact .inr rfl
    · exact .inl (hp.2 c hc)

/-! ## What floats are written as -/

/-- A decimal is written with a digit at least on either side of its point. -/
theorem isUnsigned_positional (d : Decimal) : IsUnsigned d.positional := by
  have hdigits := isDigits_toDigits d.digits
  have hzeros : ∀ n, ∀ c ∈ List.replicate n '0', c.isDigit = true := fun n c hc => by
    rw [List.eq_of_mem_replicate hc]
    rfl
  unfold positional
  dsimp only
  split
  · exact .whole (hdigits.append (hzeros _))
  · rename_i hneg
    generalize hplaces : (-d.exponent).toNat = places
    generalize hpadded : List.replicate (places + 1 - (Nat.toDigits 10 d.digits).length) '0' ++
      Nat.toDigits 10 d.digits = padded
    have hlength : places + 1 ≤ padded.length := by
      rw [← hpadded, List.length_append, List.length_replicate]
      omega
    have hall : ∀ c ∈ padded, c.isDigit = true := fun c hc => by
      rw [← hpadded, List.mem_append] at hc
      exact hc.elim (hzeros _ c) (hdigits.2 c)
    refine .point ⟨?_, fun c hc => hall c (List.mem_of_mem_take hc)⟩
      ⟨?_, fun c hc => hall c (List.mem_of_mem_drop hc)⟩
    · refine List.ne_nil_of_length_pos ?_
      rw [List.length_take]
      omega
    · refine List.ne_nil_of_length_pos ?_
      rw [List.length_drop]
      omega

/-- Every finite float is written as a plain numeral. -/
theorem isPlain_display {x : Float} (h : (fields x).exponent ≠ specialExponent) :
    IsPlain (display x).toList := by
  have hsign : ∀ {cs}, IsUnsigned cs →
      IsPlain ((if (fields x).negative then ['-'] else []) ++ cs) := fun hcs => by
    split
    · exact .negative hcs
    · exact .positive hcs
  have hzero : IsDigits ['0'] := ⟨by simp, by simp⟩
  unfold display
  dsimp only
  rw [if_neg h]
  split
  · simpa using hsign (.whole hzero)
  · simpa using hsign (isUnsigned_positional _)

/-! ## What they are read as -/

theorem takeWhile_isDigit (h : ∀ c ∈ ds, c.isDigit = true) : ds.takeWhile Char.isDigit = ds :=
  List.takeWhile_eq_self_iff.mpr h

theorem dropWhile_isDigit (h : ∀ c ∈ ds, c.isDigit = true) : ds.dropWhile Char.isDigit = [] :=
  List.dropWhile_eq_nil_iff.mpr h

theorem readMagnitude?_whole (h : IsDigits ds) :
    readMagnitude? ds = some (nearest (digitsValue ds) 0) := by
  have hne : ds.isEmpty = false := by simpa using h.1
  simp [readMagnitude?, takeWhile_isDigit h.2, dropWhile_isDigit h.2, hne, readExponent?,
    significant]

theorem readMagnitude?_point (h : ∀ c ∈ ds, c.isDigit = true) (hp : IsDigits places) :
    readMagnitude? (ds ++ '.' :: places) =
      some (nearest (digitsValue (ds ++ significant places)) (-(significant places).length)) := by
  have hne : places.isEmpty = false := by simpa using hp.1
  have hwhole : (ds ++ '.' :: places).takeWhile Char.isDigit = ds := by
    rw [List.takeWhile_append_of_pos h]
    simp
  have hrest : (ds ++ '.' :: places).dropWhile Char.isDigit = '.' :: places := by
    rw [List.dropWhile_append_of_pos h]
    simp
  simp [readMagnitude?, hwhole, hrest, takeWhile_isDigit hp.2, dropWhile_isDigit hp.2, hne,
    readExponent?]

theorem IsUnsigned.exists_readMagnitude? (h : IsUnsigned cs) : ∃ x, readMagnitude? cs = some x := by
  cases h with
  | whole h => exact ⟨_, readMagnitude?_whole h⟩
  | point h hp => exact ⟨_, readMagnitude?_point h.2 hp⟩

/-- A zero behind the point changes nothing. -/
theorem readMagnitude?_zero (h : IsDigits ds) :
    readMagnitude? (ds ++ ['.', '0']) = readMagnitude? ds := by
  have hzero : IsDigits ['0'] := ⟨by simp, by simp⟩
  rw [readMagnitude?_point h.2 hzero, readMagnitude?_whole h]
  simp [significant]

theorem IsUnsigned.takeSign_eq (h : IsUnsigned cs) : takeSign cs = (false, cs) := by
  obtain ⟨c, rest, rfl, hc⟩ := h.exists_cons
  unfold takeSign
  split
  · rename_i heq
    cases heq
    simp at hc
  · rename_i heq
    cases heq
    simp at hc
  · rfl

theorem toLower_of_isDigit (hc : c.isDigit = true) : c.toLower = c :=
  Text.of_isDigit (p := fun c => c.toLower = c) (by decide) hc

/-- An unsigned numeral is none of the words for floats that are not finite. -/
theorem IsUnsigned.lower_ne (h : IsUnsigned cs) (word : String)
    (hword : ∀ c ∈ word.toList.head?, c.isDigit = false) :
    (String.ofList (cs.map Char.toLower) == word) = false := by
  obtain ⟨c, rest, rfl, hc⟩ := h.exists_cons
  refine beq_eq_false_iff_ne.mpr ?_
  rintro rfl
  have hnot := hword c (by simp [toLower_of_isDigit hc])
  simp [hc] at hnot

/-- The float that an unsigned numeral names. -/
theorem read?_unsigned (h : IsUnsigned cs) : read? (String.ofList cs) = readMagnitude? cs := by
  have hinf := h.lower_ne "inf" (by simp)
  have hinfinity := h.lower_ne "infinity" (by simp)
  have hnan := h.lower_ne "nan" (by simp)
  simp [read?, h.takeSign_eq, hinf, hinfinity, hnan]

/-- A minus in front names the float below zero. -/
theorem read?_negative (h : IsUnsigned cs) :
    read? (String.ofList ('-' :: cs)) = (readMagnitude? cs).map (-·) := by
  have hinf := h.lower_ne "inf" (by simp)
  have hinfinity := h.lower_ne "infinity" (by simp)
  have hnan := h.lower_ne "nan" (by simp)
  simp [read?, takeSign, hinf, hinfinity, hnan]

/-- Every plain numeral names a float. -/
theorem IsPlain.exists_read? (h : IsPlain cs) : ∃ x, read? (String.ofList cs) = some x := by
  cases h with
  | positive h =>
    obtain ⟨x, hx⟩ := h.exists_readMagnitude?
    exact ⟨x, by rw [read?_unsigned h, hx]⟩
  | negative h =>
    obtain ⟨x, hx⟩ := h.exists_readMagnitude?
    exact ⟨-x, by rw [read?_negative h, hx, Option.map_some]⟩

/-! ## With integers as floats -/

open Text (promoteFrom NumeralState)

/-- Only an unsigned numeral without a point is changed, and it names the same float then. -/
theorem IsUnsigned.promoteFrom (h : IsUnsigned cs) :
    IsUnsigned (promoteFrom (.outside false) cs) ∧
      readMagnitude? (promoteFrom (.outside false) cs) = readMagnitude? cs := by
  cases h with
  | whole h =>
    have hpromote : Text.promoteFrom (.outside false) cs = cs ++ ['.', '0'] := by
      have := Text.promoteFrom_outside false h.1 h.2 []
      simpa [Text.promoteFrom] using this
    rw [hpromote]
    exact ⟨.point h ⟨by simp, by simp⟩, readMagnitude?_zero h⟩
  | @point ds places h hp =>
    have hpromote : Text.promoteFrom (.outside false) (ds ++ '.' :: places) =
        ds ++ '.' :: places := by
      have hplaces := Text.promoteFrom_outside true hp.1 hp.2 []
      rw [Text.promoteFrom_outside false h.1 h.2]
      simpa [Text.promoteFrom, Text.gluesDigits] using hplaces
    rw [hpromote]
    exact ⟨.point h hp, rfl⟩

/-- Writing the integers of a plain numeral as floats gives a plain numeral for the same float. -/
theorem IsPlain.promoteFrom (h : IsPlain cs) :
    IsPlain (promoteFrom (.outside false) cs) ∧
      read? (String.ofList (promoteFrom (.outside false) cs)) = read? (String.ofList cs) := by
  cases h with
  | positive h =>
    obtain ⟨hu, hread⟩ := h.promoteFrom
    exact ⟨.positive hu, by rw [read?_unsigned hu, hread, read?_unsigned h]⟩
  | @negative cs h =>
    obtain ⟨hu, hread⟩ := h.promoteFrom
    have hminus : Text.promoteFrom (.outside false) ('-' :: cs) =
        '-' :: Text.promoteFrom (.outside false) cs :=
      Text.promoteFrom_break (by decide) (.outside false) [] cs
    rw [hminus]
    exact ⟨.negative hu, by rw [read?_negative hu, hread, read?_negative h]⟩

end FormulaEditor.Decimal
