import FormulaEditor.Symbol.Word

/-!
# What a text is cut into

Every token of a text is one of the listed words or a single character of the text.
-/

namespace FormulaEditor.Symbol

/-! ## The words -/

theorem length_ne_one_of_mem {word : String} (h : word ∈ words) : word.toList.length ≠ 1 := by
  have hwords : ∀ word ∈ words, word.toList.length ≠ 1 := by decide +kernel
  exact hwords word h

theorem greekLetter?_or_function_or_construct {word : String} (h : word ∈ words) :
    (greekLetter? word).isSome ∨ isFunction word ∨ word ∈ constructs := by
  have hwords : ∀ word ∈ words,
      (greekLetter? word).isSome ∨ isFunction word ∨ word ∈ constructs := by decide +kernel
  exact hwords word h

theorem isAlpha_of_mem {word : String} (h : word ∈ words) :
    ∃ c cs, word.toList = c :: cs ∧ c.isAlpha = true := by
  have hwords : ∀ word ∈ words, word.toList.head?.any Char.isAlpha := by decide +kernel
  have hword := hwords word h
  cases hlist : word.toList with
  | nil => simp [hlist] at hword
  | cons c cs => exact ⟨c, cs, rfl, by simpa [hlist] using hword⟩

/-! ## Tokens -/

/-- The first token of a text is its first character, or one of the words. -/
theorem take_tokenLength (before : Option Char) (c : Char) (cs : List Char) :
    String.ofList ((c :: cs).take (tokenLength before (c :: cs))) ∈ words ∨
      (c :: cs).take (tokenLength before (c :: cs)) = [c] := by
  unfold tokenLength
  split
  · exact .inr rfl
  · rename_i w hw
    split
    · exact .inr rfl
    · left
      have hprefix := List.find?_some hw
      rw [List.isPrefixOf_iff_prefix, List.prefix_iff_eq_take, String.length_toList] at hprefix
      rw [← hprefix, String.ofList_toList]
      exact List.mem_of_find?_eq_some hw

theorem mem_splitWordsFrom {before : Option Char} {skip : Nat} {cs token : List Char}
    (h : token ∈ splitWordsFrom before skip cs) :
    String.ofList token ∈ words ∨ ∃ c ∈ cs, token = [c] := by
  induction cs generalizing before skip with
  | nil => cases skip <;> cases h
  | cons c cs ih =>
    have hrest : ∀ {before skip}, token ∈ splitWordsFrom before skip cs →
        String.ofList token ∈ words ∨ ∃ c' ∈ c :: cs, token = [c'] := fun h =>
      (ih h).imp_right fun ⟨c', hc', heq⟩ => ⟨c', List.mem_cons_of_mem c hc', heq⟩
    cases skip with
    | succ skip => exact hrest h
    | zero =>
      obtain rfl | h := List.mem_cons.mp h
      · exact (take_tokenLength before c cs).imp_right fun heq => ⟨c, List.mem_cons_self, heq⟩
      · exact hrest h

theorem mem_splitWords {text word : String} (h : word ∈ splitWords text) :
    word ∈ words ∨ ∃ c ∈ text.toList, word = String.singleton c := by
  obtain ⟨token, htoken, rfl⟩ := List.mem_map.mp h
  refine (mem_splitWordsFrom htoken).imp_right ?_
  rintro ⟨c, hc, rfl⟩
  exact ⟨c, hc, rfl⟩

/-! ## Text without letters -/

/-- No word begins with anything but a letter. -/
theorem tokenLength_of_isAlpha_eq_false {before : Option Char} {c : Char} {cs : List Char}
    (hc : c.isAlpha = false) : tokenLength before (c :: cs) = 1 := by
  have hnone : (words.find? fun w => w.toList.isPrefixOf (c :: cs)) = none := by
    refine List.find?_eq_none.mpr fun w hw hstart => ?_
    obtain ⟨d, ds, hd, halpha⟩ := isAlpha_of_mem hw
    rw [hd, List.isPrefixOf_cons_cons, Bool.and_eq_true, beq_iff_eq] at hstart
    rw [hstart.1, hc] at halpha
    cases halpha
  rw [tokenLength, hnone]

theorem splitWordsFrom_of_isAlpha_eq_false {before : Option Char} {cs : List Char}
    (h : ∀ c ∈ cs, c.isAlpha = false) : splitWordsFrom before 0 cs = cs.map ([·]) := by
  induction cs generalizing before with
  | nil => rfl
  | cons c cs ih =>
    obtain ⟨hc, hcs⟩ := List.forall_mem_cons.mp h
    rw [splitWordsFrom, tokenLength_of_isAlpha_eq_false hc]
    simp [ih hcs]

/-- A text without letters is cut into its characters. -/
theorem splitWords_of_isAlpha_eq_false {text : String} (h : ∀ c ∈ text.toList, c.isAlpha = false) :
    splitWords text = text.toList.map String.singleton := by
  rw [splitWords, splitWordsFrom_of_isAlpha_eq_false h, List.map_map]
  rfl

end FormulaEditor.Symbol
