import FormulaEditor.Proofs.Symbol.Splitting

/-!
# Where a text is cut

No word of the list begins with an earlier one, so the first word that fits is the longest. A token
holds every word that begins where it does, but for `psi` where that may be the end of a longer
name. With less text behind it no other word fits, so a first part of the tokens is cut in the same
places by itself.
-/

namespace FormulaEditor.Symbol

variable {before : Option Char} {tokens front back : List (List Char)} {token cs : List Char}

/-! ## The longest word -/

theorem words_pairwise_not_prefix :
    words.Pairwise fun earlier later => ¬earlier.toList <+: later.toList := by
  -- On numbers the comparison of all pairs is quicker than on characters.
  have hcodes : words.Pairwise fun earlier later =>
      (earlier.toList.map Char.toNat).isPrefixOf (later.toList.map Char.toNat) = false := by
    decide +kernel
  refine hcodes.imp ?_
  intro earlier later hnot hbegins
  rw [List.isPrefixOf_iff_prefix.mpr (hbegins.map Char.toNat)] at hnot
  cases hnot

/-- The first word that fits holds every other one that fits. -/
theorem prefix_of_find? {first word : String}
    (h : (words.find? fun w => w.toList.isPrefixOf cs) = some first) (hword : word ∈ words)
    (hfits : word.toList <+: cs) : word.toList <+: first.toList := by
  obtain ⟨hfirst, earlier, later, hwords, hearlier⟩ := List.find?_eq_some_iff_append.mp h
  rw [List.isPrefixOf_iff_prefix] at hfirst
  rcases List.prefix_or_prefix_of_prefix hfits hfirst with hle | hge
  · exact hle
  · have hpairs := words_pairwise_not_prefix
    rw [hwords, List.pairwise_append, List.pairwise_cons] at hpairs
    rw [hwords, List.mem_append, List.mem_cons] at hword
    rcases hword with hin | rfl | hin
    · have hnot : word.toList.isPrefixOf cs = false := by simpa using hearlier word hin
      rw [List.isPrefixOf_iff_prefix.mpr hfits] at hnot
      cases hnot
    · exact List.prefix_rfl
    · exact absurd hge (hpairs.2.1.1 word hin)

/-- A token holds each word that begins where it does, but for `psi` behind `e` or `u`. -/
theorem prefix_token_iff (hlength : tokenLength before (token ++ cs) = token.length) {word : String}
    (hword : word ∈ words) (hfits : word.toList <+: token ++ cs) :
    word.toList <+: token ↔ ¬(word = "psi" ∧ before.any opensPsi = true) := by
  cases hfind : words.find? fun w => w.toList.isPrefixOf (token ++ cs) with
  | none =>
    have hnot := List.find?_eq_none.mp hfind word hword
    exact absurd (List.isPrefixOf_iff_prefix.mpr hfits) hnot
  | some first =>
    have hheld : word.toList <+: first.toList := prefix_of_find? hfind hword hfits
    have hfirst := List.find?_some hfind
    rw [List.isPrefixOf_iff_prefix] at hfirst
    rw [tokenLength, hfind] at hlength
    by_cases hcut : first = "psi" ∧ before.any opensPsi = true
    · obtain ⟨rfl, hbefore⟩ := hcut
      obtain rfl := eq_psi_of_overlap hword (.inl hheld)
      simp only [beq_self_eq_true, hbefore, Bool.and_self, ↓reduceIte] at hlength
      refine iff_of_false ?_ (by simp [hbefore])
      intro hshort
      have hthree : "psi".toList.length = 3 := rfl
      have := hshort.length_le
      omega
    · have hwhole : first.toList.length = token.length := by
        rw [String.length_toList]
        simpa only [Bool.and_eq_true, beq_iff_eq, if_neg hcut] using hlength
      have htoken : first.toList <+: token :=
        List.prefix_of_prefix_length_le hfirst (List.prefix_append token cs) (Nat.le_of_eq hwhole)
      refine iff_of_true (hheld.trans htoken) ?_
      rintro ⟨rfl, hbefore⟩
      exact hcut ⟨eq_psi_of_overlap (List.mem_of_find?_eq_some hfind) (.inr hheld), hbefore⟩

/-! ## Tokens at their places -/

/-- Each token is taken behind the last character in front of it. -/
theorem Splits.tokenLength_eq (h : Splits before (front ++ token :: back)) :
    tokenLength (front.flatten.getLast?.or before) (token ++ back.flatten) = token.length := by
  induction front generalizing before with
  | nil => exact h.2.1
  | cons first front ih =>
    obtain ⟨hne, -, hrest⟩ := h
    have hlast : (first ++ front.flatten).getLast?.or before =
        front.flatten.getLast?.or first.getLast? := by
      rw [List.getLast?_append, List.getLast?_eq_some_getLast hne]
      cases front.flatten.getLast? <;> rfl
    rw [List.flatten_cons, hlast]
    exact ih hrest

/-- Tokens are those of their text whatever text they are cut off from. -/
theorem Splits.of_prefix (h : Splits before (front ++ back)) : Splits before front := by
  induction front generalizing before with
  | nil => trivial
  | cons token front ih =>
    obtain ⟨hne, hlength, hrest⟩ := h
    refine ⟨hne, ?_, ih hrest⟩
    have hless : token ++ front.flatten <+: token ++ (front ++ back).flatten := by
      rw [List.flatten_append, ← List.append_assoc]
      exact List.prefix_append _ _
    exact tokenLength_congr (List.prefix_append _ _) (List.prefix_append _ _)
      (fun _ _ hfits => hfits.trans hless) (fun _ => rfl) hlength

/-! ## The text -/

/-- A text is cut into words and single characters that make it up. A token holds each word that
begins where it does, but for `psi` behind `e` or `u`, and a first part of the tokens is cut in the
same places by itself. -/
theorem splitWords_cuts (text : String) :
    String.join (splitWords text) = text ∧
      (∀ token ∈ splitWords text,
        token ≠ "" ∧ (token ∈ words ∨ ∃ c ∈ text.toList, token = String.singleton c)) ∧
      (∀ front token back, splitWords text = front ++ token :: back → ∀ word ∈ words,
        word.toList <+: (String.join (token :: back)).toList →
          (word.toList <+: token.toList ↔
            ¬(word = "psi" ∧ (String.join front).toList.getLast?.any opensPsi = true))) ∧
      ∀ front, front <+: splitWords text → splitWords (String.join front) = front := by
  have hsplits := splits_splitWords text
  refine ⟨join_splitWords text, ?_, ?_, ?_⟩
  · intro token htoken
    exact ⟨ne_empty_of_mem_splitWords htoken, mem_splitWords htoken⟩
  · intro front token back htokens word hword hfits
    rw [htokens, List.map_append, List.map_cons] at hsplits
    have hlength := hsplits.tokenLength_eq
    rw [Option.or_none, ← List.flatMap_def, ← List.flatMap_def, ← String.toList_join,
      ← String.toList_join] at hlength
    rw [String.join_cons, String.toList_append] at hfits
    exact prefix_token_iff hlength hword hfits
  · rintro front ⟨back, htokens⟩
    rw [← htokens, List.map_append] at hsplits
    exact splitWords_join_eq_iff.mpr hsplits.of_prefix

/-- Behind `u` the letters of `psi` are cut one by one, also where the text ends among them. -/
theorem splitWords_cuts_of_upsi :
    ("epsilon" ∈ splitWords "3epsilonupsi" ∧ "epsilon" ≠ "" ∧
      ("epsilon" ∈ words ∨ ∃ c ∈ "3epsilonupsi".toList, "epsilon" = String.singleton c)) ∧
      (splitWords "3epsilonupsi" = ["3", "epsilon", "u"] ++ "p" :: ["s", "i"] ∧ "psi" ∈ words ∧
        "psi".toList <+: (String.join ["p", "s", "i"]).toList ∧
        ("psi".toList <+: "p".toList ↔ ¬("psi" = "psi" ∧
          (String.join ["3", "epsilon", "u"]).toList.getLast?.any opensPsi = true))) ∧
      ["3", "epsilon", "u", "p"] <+: splitWords "3epsilonupsi" ∧
        splitWords (String.join ["3", "epsilon", "u", "p"]) = ["3", "epsilon", "u", "p"] := by
  have htokens : splitWords "3epsilonupsi" = ["3", "epsilon", "u"] ++ "p" :: ["s", "i"] := by
    decide +kernel
  have htoken : "epsilon" ∈ splitWords "3epsilonupsi" := by simp [htokens]
  have hword : "psi" ∈ words := by decide +kernel
  have hfits : "psi".toList <+: (String.join ["p", "s", "i"]).toList := by decide +kernel
  have hfront : ["3", "epsilon", "u", "p"] <+: splitWords "3epsilonupsi" :=
    ⟨["s", "i"], htokens.symm⟩
  obtain ⟨-, hall, hheld, hagain⟩ := splitWords_cuts "3epsilonupsi"
  exact ⟨⟨htoken, hall _ htoken⟩, ⟨htokens, hword, hfits, hheld _ _ _ htokens _ hword hfits⟩,
    hfront, hagain _ hfront⟩

end FormulaEditor.Symbol
