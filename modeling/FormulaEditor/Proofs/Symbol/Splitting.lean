import FormulaEditor.Proofs.Symbol.Word
import Mathlib.Data.List.Basic

/-!
# Splitting a text once more

A token is known from the text it begins and from the character before that. So whether tokens are
those of their text can be told token by token. Putting symbols that no word has in the place of
tokens, and leaving tokens off at the end, makes no new words but one: behind a symbol `psi` is a
word, even where it was none behind what the symbol has taken the place of.
-/

namespace FormulaEditor.Symbol

variable {before before' : Option Char} {tokens shown : List (List Char)} {token cs cs' : List Char}

/-! ## Tokens of a text -/

/-- Each token is the one that is taken at its place. -/
def Splits : Option Char → List (List Char) → Prop
  | _, [] => True
  | before, token :: tokens =>
    token ≠ [] ∧ tokenLength before (token ++ tokens.flatten) = token.length ∧
      Splits token.getLast? tokens

theorem tokenLength_pos (before : Option Char) (cs : List Char) : 0 < tokenLength before cs := by
  have hwords : ∀ w ∈ words, 0 < w.length := by decide +kernel
  unfold tokenLength
  split
  · exact Nat.one_pos
  · rename_i w hw
    have := hwords w (List.mem_of_find?_eq_some hw)
    split
    · exact Nat.one_pos
    · exact this

theorem tokenLength_le (before : Option Char) (c : Char) (cs : List Char) :
    tokenLength before (c :: cs) ≤ (c :: cs).length := by
  unfold tokenLength
  split
  · simp
  · rename_i w hw
    have hprefix := List.find?_some hw
    rw [List.isPrefixOf_iff_prefix] at hprefix
    have := hprefix.length_le
    rw [String.length_toList] at this
    split
    · simp
    · exact this

/-- What a token holds is passed over. -/
theorem splitWordsFrom_length (token cs : List Char) :
    splitWordsFrom before token.length (token ++ cs) =
      splitWordsFrom (token.getLast?.or before) 0 cs := by
  induction token generalizing before with
  | nil => rfl
  | cons c token ih =>
    rw [List.length_cons, List.cons_append, splitWordsFrom, ih, List.getLast?_cons]
    cases token.getLast? <;> rfl

theorem splitWordsFrom_append (hne : token ≠ [])
    (h : tokenLength before (token ++ cs) = token.length) :
    splitWordsFrom before 0 (token ++ cs) = token :: splitWordsFrom token.getLast? 0 cs := by
  obtain ⟨c, rest, rfl⟩ := List.exists_cons_of_ne_nil hne
  rw [List.cons_append] at h ⊢
  rw [splitWordsFrom, h, ← List.cons_append, List.take_left, List.length_cons,
    Nat.add_sub_cancel, splitWordsFrom_length, List.getLast?_cons]
  cases rest.getLast? <;> rfl

/-- Tokens that are taken one after the other are those of their text. -/
theorem Splits.splitWordsFrom_eq (h : Splits before tokens) :
    splitWordsFrom before 0 tokens.flatten = tokens := by
  induction tokens generalizing before with
  | nil => rfl
  | cons token tokens ih =>
    obtain ⟨hne, hlength, hrest⟩ := h
    rw [List.flatten_cons, splitWordsFrom_append hne hlength, ih hrest]

/-- A text is split into tokens that make it up. -/
theorem splitWordsFrom_splits (before : Option Char) (cs : List Char) :
    Splits before (splitWordsFrom before 0 cs) ∧ (splitWordsFrom before 0 cs).flatten = cs := by
  -- By length: the first token leaves a shorter text.
  induction hn : cs.length using Nat.strongRecOn generalizing before cs with
  | ind n ih =>
    subst hn
    cases cs with
    | nil => exact ⟨trivial, rfl⟩
    | cons c cs =>
      have hpos := tokenLength_pos before (c :: cs)
      have hle := tokenLength_le before c cs
      have hsplit := List.take_append_drop (tokenLength before (c :: cs)) (c :: cs)
      generalize htoken : (c :: cs).take (tokenLength before (c :: cs)) = token at hsplit
      generalize hrest : (c :: cs).drop (tokenLength before (c :: cs)) = rest at hsplit
      have hlength : tokenLength before (c :: cs) = token.length := by
        rw [← htoken, List.length_take]
        omega
      have hne : token ≠ [] := List.ne_nil_of_length_pos (hlength ▸ hpos)
      rw [← hsplit] at hlength ⊢
      obtain ⟨hsplits, hflatten⟩ := ih rest.length
        (by rw [← hsplit, List.length_append]; have := List.length_pos_iff.mpr hne; omega)
        token.getLast? rest rfl
      rw [splitWordsFrom_append hne hlength]
      refine ⟨⟨hne, ?_, hsplits⟩, ?_⟩
      · rw [hflatten, hlength]
      · rw [List.flatten_cons, hflatten]

theorem splitWordsFrom_eq_iff :
    splitWordsFrom before 0 tokens.flatten = tokens ↔ Splits before tokens :=
  ⟨fun h => h ▸ (splitWordsFrom_splits before tokens.flatten).1, Splits.splitWordsFrom_eq⟩

/-- The tokens behind a token are taken behind its last character. -/
theorem Splits.of_append {front : List (List Char)} (h : Splits before (front ++ tokens)) :
    Splits ((front.getLast?.map List.getLast?).getD before) tokens := by
  induction front generalizing before with
  | nil => exact h
  | cons token front ih =>
    have := ih h.2.2
    rw [List.getLast?_cons]
    cases hlast : front.getLast? <;> simpa [hlast] using this

/-! ## The tokens as texts -/

theorem join_splitWords (text : String) : String.join (splitWords text) = text := by
  refine String.toList_injective ?_
  rw [String.toList_join, splitWords, List.flatMap_map]
  simp only [String.toList_ofList, List.flatMap_id']
  exact (splitWordsFrom_splits none text.toList).2

/-- Texts are the tokens of what they make up just if each is taken at its place. -/
theorem splitWords_join_eq_iff {texts : List String} :
    splitWords (String.join texts) = texts ↔ Splits none (texts.map String.toList) := by
  have hflatten : (String.join texts).toList = (texts.map String.toList).flatten := by
    rw [String.toList_join, List.flatMap_def]
  rw [← splitWordsFrom_eq_iff, splitWords, hflatten]
  generalize (texts.map String.toList).flatten = cs
  constructor
  · intro h
    simpa [List.map_map, Function.comp_def] using congrArg (List.map String.toList) h
  · intro h
    simpa [List.map_map, Function.comp_def] using congrArg (List.map String.ofList) h

theorem splits_splitWords (text : String) :
    Splits none ((splitWords text).map String.toList) :=
  splitWords_join_eq_iff.mp (by rw [join_splitWords])

theorem ne_empty_of_mem_splitWords {text word : String} (h : word ∈ splitWords text) :
    word ≠ "" := by
  rintro rfl
  obtain hword | ⟨c, -, hc⟩ := mem_splitWords h
  · exact absurd hword (by decide +kernel)
  · simpa using congrArg String.toList hc

/-! ## Words at a place -/

theorem isAlpha_of_mem_word {w : String} (hw : w ∈ words) : ∀ c ∈ w.toList, c.isAlpha = true := by
  have hwords : (words.all fun w => w.toList.all Char.isAlpha) = true := by decide +kernel
  exact List.all_eq_true.mp (List.all_eq_true.mp hwords w hw)

/-- No other word begins `psi`, and none begins with it. -/
theorem eq_psi_of_overlap {w : String} (hw : w ∈ words)
    (h : w.toList <+: "psi".toList ∨ "psi".toList <+: w.toList) : w = "psi" := by
  have hwords : ∀ w ∈ words,
      (w.toList <+: "psi".toList ∨ "psi".toList <+: w.toList) → w = "psi" := by decide +kernel
  exact hwords w hw h

theorem find?_psi (h : "psi".toList <+: cs) :
    (words.find? fun w => w.toList.isPrefixOf cs) = some "psi" := by
  cases hfind : words.find? fun w => w.toList.isPrefixOf cs with
  | none =>
    have hnot := List.find?_eq_none.mp hfind "psi" (by decide +kernel)
    exact absurd (List.isPrefixOf_iff_prefix.mpr h) hnot
  | some w =>
    have hw := List.find?_some hfind
    rw [List.isPrefixOf_iff_prefix] at hw
    exact congrArg some (eq_psi_of_overlap (List.mem_of_find?_eq_some hfind)
      (List.prefix_or_prefix_of_prefix hw h))

/-- A letter by itself where it follows on `e` or `u`, a word elsewhere. -/
theorem tokenLength_psi (h : "psi".toList <+: cs) :
    tokenLength before cs = if before.any opensPsi then 1 else 3 := by
  rw [tokenLength, find?_psi h]
  cases before.any opensPsi <;> rfl

/-- The first word of a list that fits is still the first where no other ones fit. -/
theorem find?_of_subset (hsub : ∀ w ∈ words, w.toList <+: cs' → w.toList <+: cs) {w : String}
    (h : (words.find? fun w => w.toList.isPrefixOf cs) = some w) (hw : w.toList <+: cs') :
    (words.find? fun w => w.toList.isPrefixOf cs') = some w := by
  obtain ⟨-, front, back, hsplit, hfront⟩ := List.find?_eq_some_iff_append.mp h
  refine List.find?_eq_some_iff_append.mpr
    ⟨List.isPrefixOf_iff_prefix.mpr hw, front, back, hsplit, fun v hv => ?_⟩
  have hnot := hfront v hv
  simp only [Bool.not_eq_true', ← Bool.not_eq_true, List.isPrefixOf_iff_prefix] at hnot ⊢
  exact fun hc => hnot (hsub v (hsplit ▸ List.mem_append_left _ hv) hc)

/-- A token is still taken where it stands in front of other text, unless that makes a new word
there, and unless `psi` stands there and it does not follow on the same sort of character. -/
theorem tokenLength_congr (htoken : token <+: cs) (htoken' : token <+: cs')
    (hsub : ∀ w ∈ words, w.toList <+: cs' → w.toList <+: cs)
    (hpsi : "psi".toList <+: cs' → before'.any opensPsi = before.any opensPsi)
    (h : tokenLength before cs = token.length) : tokenLength before' cs' = token.length := by
  by_cases hpsi' : "psi".toList <+: cs'
  · rw [tokenLength_psi hpsi', hpsi hpsi', ← h,
      tokenLength_psi (hsub "psi" (by decide +kernel) hpsi')]
  · have hnone : (∀ w ∈ words, ¬w.toList <+: cs') → tokenLength before' cs' = 1 := by
      intro hnone
      have hfind : (words.find? fun w => w.toList.isPrefixOf cs') = none :=
        List.find?_eq_none.mpr fun w hw hc => hnone w hw (List.isPrefixOf_iff_prefix.mp hc)
      rw [tokenLength, hfind]
    cases hfind : words.find? fun w => w.toList.isPrefixOf cs with
    | none =>
      rw [tokenLength, hfind] at h
      rw [← h]
      exact hnone fun w hw hc =>
        List.find?_eq_none.mp hfind w hw (List.isPrefixOf_iff_prefix.mpr (hsub w hw hc))
    | some w =>
      have hw := List.mem_of_find?_eq_some hfind
      have hwcs := List.find?_some hfind
      rw [List.isPrefixOf_iff_prefix] at hwcs
      rw [tokenLength, hfind] at h
      by_cases hcut : w = "psi" ∧ before.any opensPsi
      · -- The cut word is gone, and no other one can stand where it stood.
        obtain ⟨rfl, hbefore⟩ := hcut
        simp only [beq_self_eq_true, hbefore, Bool.and_self, ↓reduceIte] at h
        rw [← h]
        refine hnone fun v hv hc => hpsi' ?_
        obtain rfl := eq_psi_of_overlap hv (List.prefix_or_prefix_of_prefix (hsub v hv hc) hwcs)
        exact hc
      · have hlength : w.length = token.length := by
          simpa only [Bool.and_eq_true, beq_iff_eq, if_neg hcut] using h
        have hwtoken : w.toList <+: token :=
          List.prefix_of_prefix_length_le hwcs htoken
            (by rw [String.length_toList]; exact Nat.le_of_eq hlength)
        have hwcs' := hwtoken.trans htoken'
        have hne : w ≠ "psi" := fun hc => hpsi' (hc ▸ hwcs')
        rw [tokenLength, find?_of_subset hsub hfind hwcs']
        simp [hne, hlength]

/-! ## Symbols in the place of tokens -/

/-- Tokens of which some have given way to symbols that no word has, and some are left off at the
end. -/
inductive Masks : List (List Char) → List (List Char) → Prop
  | stop (tokens : List (List Char)) : Masks tokens []
  | keep {tokens shown : List (List Char)} (token : List Char) (rest : Masks tokens shown) :
    Masks (token :: tokens) (token :: shown)
  | symbol {tokens shown : List (List Char)} {c : Char} (token : List Char)
    (hc : c.isAlpha = false) (rest : Masks tokens shown) : Masks (token :: tokens) ([c] :: shown)

/-- What is a word there now was one before. -/
theorem Masks.word_unmasked (h : Masks tokens shown) {w : List Char}
    (hw : ∀ c ∈ w, c.isAlpha = true) (hp : w <+: shown.flatten) : w <+: tokens.flatten := by
  induction h generalizing w with
  | stop => simp_all
  | keep token rest ih =>
    rw [List.flatten_cons] at hp ⊢
    obtain hshort | ⟨w', rfl⟩ :=
      List.prefix_or_prefix_of_prefix hp (List.prefix_append token _)
    · exact hshort.trans (List.prefix_append _ _)
    · rw [List.prefix_append_right_inj] at hp ⊢
      exact ih (fun c hc => hw c (List.mem_append_right _ hc)) hp
  | symbol token hc rest ih =>
    cases w with
    | nil => exact List.nil_prefix
    | cons d w =>
      obtain ⟨rfl, -⟩ := List.cons_prefix_cons.mp hp
      simp [hw _ List.mem_cons_self] at hc

theorem opensPsi_of_isAlpha_eq_false {c : Char} (hc : c.isAlpha = false) : opensPsi c = false := by
  by_contra hopens
  simp only [opensPsi, Bool.not_eq_false, Bool.or_eq_true, beq_iff_eq] at hopens
  obtain ((rfl | rfl) | rfl) | rfl := hopens <;> cases hc

/-- Where the letters of `psi` are tokens of their own they make a word behind another character. -/
theorem Masks.not_splits (hm : Masks tokens shown) (h : Splits before tokens)
    (hbefore : before.any opensPsi = true) (hbefore' : before'.any opensPsi = false)
    (hpsi : "psi".toList <+: shown.flatten) : ¬Splits before' shown := by
  intro h'
  cases hm with
  | stop tokens => exact absurd hpsi (by simp)
  | @keep tokens shown token rest =>
    have hwords := isAlpha_of_mem_word (show "psi" ∈ words by decide +kernel)
    have hlength : tokenLength before (token :: tokens).flatten = token.length := h.2.1
    have hlength' : tokenLength before' (token :: shown).flatten = token.length := h'.2.1
    rw [tokenLength_psi ((Masks.keep token rest).word_unmasked hwords hpsi), hbefore] at hlength
    rw [tokenLength_psi hpsi, hbefore'] at hlength'
    simp only [↓reduceIte, Bool.false_eq_true] at hlength hlength'
    omega
  | symbol token hc rest =>
    obtain ⟨rfl, -⟩ := List.cons_prefix_cons.mp hpsi
    cases hc

/-- Symbols in the place of some tokens, and the tokens that are left, are the tokens of what they
show, unless behind one of the symbols `psi` is shown that was none behind the token. -/
theorem Masks.splits_iff (hm : Masks tokens shown) (h : Splits before tokens)
    (hpsi : "psi".toList <+: shown.flatten → before'.any opensPsi = before.any opensPsi) :
    Splits before' shown ↔ ∀ i token symbol, tokens[i]? = some token → shown[i]? = some symbol →
      symbol ≠ token → token.getLast?.any opensPsi = true →
        ¬"psi".toList <+: (shown.drop (i + 1)).flatten := by
  have hshift : ∀ {p : Nat → Prop}, (∀ i, p i) ↔ p 0 ∧ ∀ i, p (i + 1) := fun {p} =>
    ⟨fun hp => ⟨hp 0, fun i => hp (i + 1)⟩, fun hp i => by cases i; exacts [hp.1, hp.2 _]⟩
  induction hm generalizing before before' with
  | stop tokens => simp [Splits]
  | @keep tokens shown token rest ih =>
    obtain ⟨hne, hlength, hrest⟩ := h
    have htaken : tokenLength before' (token ++ shown.flatten) = token.length :=
      tokenLength_congr (List.prefix_append _ _) (List.prefix_append _ _)
        (fun w hw => (Masks.keep token rest).word_unmasked (isAlpha_of_mem_word hw)) hpsi hlength
    rw [hshift]
    simp only [Splits, ne_eq, hne, htaken, ih hrest fun _ => rfl, not_false_eq_true, true_and,
      List.getElem?_cons_succ, List.drop_succ_cons]
    simp
  | @symbol tokens shown c token hc rest ih =>
    obtain ⟨hne, hlength, hrest⟩ := h
    have hopens := opensPsi_of_isAlpha_eq_false hc
    have htaken : tokenLength before' ([c] ++ shown.flatten) = [c].length :=
      tokenLength_of_isAlpha_eq_false hc
    rw [hshift]
    simp only [Splits, htaken, List.getElem?_cons_succ, List.drop_succ_cons, List.drop_zero,
      List.getElem?_cons_zero, Option.some.injEq, List.getLast?_singleton, ne_eq,
      List.cons_ne_nil, not_false_eq_true, true_and]
    by_cases hlost : token.getLast?.any opensPsi = true ∧ "psi".toList <+: shown.flatten
    · obtain ⟨hlast, hstarts⟩ := hlost
      have hsymbol : [c] ≠ token := by
        rintro rfl
        simp [hopens] at hlast
      refine iff_of_false ?_ fun hshown => hshown.1 token [c] rfl rfl hsymbol hlast hstarts
      exact rest.not_splits hrest hlast (by simp [hopens]) hstarts
    · rw [not_and] at hlost
      have hlater := @ih _ (some c) hrest fun hstarts => by
        have hlast : token.getLast?.any opensPsi = false :=
          Bool.eq_false_iff.mpr fun hlast => hlost hlast hstarts
        rw [hlast, Option.any_some, hopens]
      refine ⟨fun hshown => ⟨?_, hlater.mp hshown⟩, fun hshown => hlater.mpr hshown.2⟩
      rintro _ _ rfl rfl -
      exact hlost

end FormulaEditor.Symbol
