import FormulaEditor.Proofs.Tex.Reading

/-!
# Tokens that mean something

Text is read only if each of its tokens means something: a character that can stand in notation, or
a control sequence of the tables. Whatever a reader accepts it takes from the front, token by token.
-/

namespace FormulaEditor.Tex

variable {finish : Nat} {R : ListReading} {lexemes middle rest : List Lexeme} {ns : List Node}
  {n : Node} {l : Lexeme}

/-- The token has a use somewhere in formula text. -/
def Token.Meaningful : Token → Prop
  | command name => (Command.ofName? name).isSome ∨ ∃ corner : Corner, name = corner.closer
  | char c => isAtomChar c ∨ isScriptGlyph c ∨ (BinaryOp.ofChar? c).isSome ∨
      c ∈ ['(', ')', '[', ']', '|']
  | beginGroup | endGroup | superscript | subscript => True

/-- Meaningful tokens stand in front of the rest. -/
def Takes (lexemes rest : List Lexeme) : Prop :=
  ∃ taken, lexemes = taken ++ rest ∧ ∀ l ∈ taken, l.token.Meaningful

namespace Takes

theorem refl (lexemes : List Lexeme) : Takes lexemes lexemes :=
  ⟨[], rfl, by simp⟩

theorem trans (h : Takes lexemes middle) (h' : Takes middle rest) : Takes lexemes rest := by
  obtain ⟨taken, rfl, htaken⟩ := h
  obtain ⟨more, rfl, hmore⟩ := h'
  exact ⟨taken ++ more, (List.append_assoc ..).symm, List.forall_mem_append.mpr ⟨htaken, hmore⟩⟩

theorem cons (hl : l.token.Meaningful) (h : Takes lexemes rest) : Takes (l :: lexemes) rest := by
  obtain ⟨taken, rfl, htaken⟩ := h
  exact ⟨l :: taken, rfl, List.forall_mem_cons.mpr ⟨hl, htaken⟩⟩

theorem single (hl : l.token.Meaningful) : Takes (l :: rest) rest :=
  .cons hl (.refl rest)

end Takes

theorem meaningful_command {name : String} {command : Command}
    (h : Command.ofName? name = some command) : (Token.command name).Meaningful :=
  .inl (Option.isSome_of_eq_some h)

theorem meaningful_closer (corner : Corner) : (Token.command corner.closer).Meaningful :=
  .inr ⟨corner, rfl⟩

theorem meaningful_delimiter {c : Char} (h : c ∈ ['(', ')', '[', ']', '|']) :
    (Token.char c).Meaningful :=
  .inr (.inr (.inr h))

theorem meaningful_letter {name : String} {c : Char} (h : Symbol.greekMacro? name = some c) :
    (Token.command name).Meaningful := by
  refine .inl ?_
  rw [Command.ofName?, h]
  cases Command.table.lookup name <;> rfl

/-! ## Readers without lists -/

theorem close?_takes {ending : Ending} {openBrackets : Nat}
    (h : ending.close? openBrackets lexemes = some rest) : Takes lexemes rest := by
  have hright : (Token.command "right").Meaningful := .inl rfl
  unfold Ending.close? at h
  split at h
  · cases h
    exact .refl []
  · cases h
    exact .single trivial
  · split at h
    · cases h
      exact .single (meaningful_delimiter (by simp))
    · cases h
  · cases h
    exact .single (meaningful_delimiter (by simp))
  · cases h
    exact .cons hright (.single (meaningful_delimiter (by simp)))
  · rename_i corner name o rest'
    split at h
    · rename_i hname
      cases h
      exact .single (hname ▸ meaningful_closer corner)
    · split at h
      · split at h
        · rename_i hname
          cases h
          exact .cons hright (.single (hname ▸ meaningful_closer corner))
        · cases h
      · cases h
  · cases h

theorem takeGlyphs_takes {table : Char → Option Char}
    (htable : ∀ c p, table c = some p → isScriptGlyph c) (lexemes : List Lexeme) :
    Takes lexemes (takeGlyphs table lexemes).2 := by
  fun_induction takeGlyphs table lexemes with
  | case1 c o rest p hp run rest' heq ih =>
    rw [heq] at ih
    exact .cons (.inr (.inl (htable c p hp))) ih
  | case2 | case3 => exact .refl _

theorem readScriptGlyphs_takes (h : readScriptGlyphs lexemes = (n, rest)) :
    Takes lexemes rest := by
  have hsup (lexemes : List Lexeme) : Takes lexemes (takeGlyphs Symbol.superscript? lexemes).2 :=
    takeGlyphs_takes (fun c p hp => by simp [isScriptGlyph, hp]) lexemes
  have hsub (lexemes : List Lexeme) : Takes lexemes (takeGlyphs Symbol.subscript? lexemes).2 :=
    takeGlyphs_takes (fun c p hp => by simp [isScriptGlyph, hp]) lexemes
  unfold readScriptGlyphs at h
  simp only at h
  split at h
  · cases h
    exact ((hsup _).trans (hsub _)).trans (hsup _)
  · cases h
    exact (hsup _).trans (hsub _)

theorem readNameLetters_takes {letters : List Char}
    (h : readNameLetters finish lexemes = .ok (letters, rest)) : Takes lexemes rest := by
  fun_induction readNameLetters finish lexemes generalizing letters with
  | case1 | case4 | case5 => cases h
  | case2 o rest =>
    cases h
    exact .single trivial
  | case3 c o rest hc ih =>
    obtain ⟨⟨cs, rest'⟩, hcs, h⟩ := bind_eq_ok.mp h
    cases h
    exact .cons (.inl (by simp [isAtomChar, hc])) (ih hcs)

theorem readOperatorName_takes (h : readOperatorName finish lexemes = .ok (n, rest)) :
    Takes lexemes rest := by
  unfold readOperatorName at h
  split at h
  · obtain ⟨⟨letters, rest'⟩, hl, h⟩ := bind_eq_ok.mp h
    simp only at h
    split at h
    · cases h
    · cases h
      exact .cons trivial (readNameLetters_takes hl)
  · cases h

theorem readRight_takes (h : readRight finish lexemes = .ok (n, rest)) : Takes lexemes rest := by
  unfold readRight at h
  split at h
  · split at h
    · rename_i c o rest hc
      cases h
      obtain rfl | rfl : c = ')' ∨ c = ']' := by simpa using hc
      all_goals exact .single (meaningful_delimiter (by simp))
    · exact absurd h missing_ne_ok
  · split at h
    · rename_i name o rest hname
      cases h
      exact .single (.inl (hname ▸ rfl))
    · exact absurd h missing_ne_ok
  · exact absurd h missing_ne_ok

/-! ## Judgements -/

section Judgements

variable (hR : ∀ ending lexemes ns rest, R ending lexemes ns rest → Takes lexemes rest)

include hR

theorem GroupBy.takes (h : GroupBy R lexemes ns rest) : Takes lexemes rest := by
  obtain ⟨h⟩ := h
  exact .cons trivial (hR _ _ _ _ h)

theorem ArgumentBy.takes (h : ArgumentBy R lexemes ns rest) : Takes lexemes rest := by
  cases h with
  | group h => exact .cons trivial (hR _ _ _ _ h)
  | char h => exact .single (.inl h)
  | letter h => exact .single (meaningful_letter h)

theorem ScriptBy.takes {mark : Token} {script : Option (List Node)}
    (h : ScriptBy R mark lexemes script rest) (hmark : mark.Meaningful) : Takes lexemes rest := by
  cases h with
  | present h => exact .cons hmark (h.takes hR)
  | absent => exact .refl _

theorem PairBy.takes {exponent subscript : Option (List Node)}
    (h : PairBy R lexemes exponent subscript rest) : Takes lexemes rest := by
  cases h with
  | exponentFirst h h' => exact (h.takes hR trivial).trans (h'.takes hR trivial)
  | subscriptFirst _ h h' => exact (h.takes hR trivial).trans (h'.takes hR trivial)

theorem LeftBy.takes (h : LeftBy R lexemes n rest) : Takes lexemes rest := by
  cases h with
  | paren h => exact .single (meaningful_delimiter (by obtain rfl | rfl := h <;> simp))
  | brace h => exact .single (meaningful_command h)
  | bar h => exact .cons (meaningful_delimiter (by simp)) (hR _ _ _ _ h)
  | corner hn h => exact .cons (meaningful_command hn) (hR _ _ _ _ h)

theorem CommandBy.takes {command : Command} {n : Option Node}
    (h : CommandBy R finish command lexemes n rest) : Takes lexemes rest := by
  cases h with
  | frac h h' => exact (h.takes hR).trans (h'.takes hR)
  | squareRoot h => exact h.takes hR
  | root h h' => exact .cons (meaningful_delimiter (by simp)) ((hR _ _ _ _ h).trans (h'.takes hR))
  | wrap h => exact h.takes hR
  | corner h => exact hR _ _ _ _ h
  | operatorName h => exact readOperatorName_takes h
  | big h => exact h.takes hR
  | left h => exact h.takes hR
  | right h => exact readRight_takes h
  | times | paren | spacing | letter | function => exact .refl _

theorem ItemBy.takes (h : ItemBy R finish lexemes ns rest) : Takes lexemes rest := by
  cases h with
  | group h => exact .cons trivial (hR _ _ _ _ h)
  | scripts _ h => exact h.takes hR
  | glyphs _ h => exact readScriptGlyphs_takes h
  | bar h => exact .cons (meaningful_delimiter (by simp)) (hR _ _ _ _ h)
  | paren hc =>
    exact .single (meaningful_delimiter (by obtain rfl | rfl | rfl | rfl := hc <;> simp))
  | binary hc => exact .single (.inr (.inr (.inl (Option.isSome_of_eq_some hc))))
  | atom hc => exact .single (.inl hc)
  | command hn h => exact .cons (meaningful_command hn) (h.takes hR)

end Judgements

/-! ## Texts -/

theorem readListWith_takes {fuel openBrackets : Nat} {ending : Ending}
    (h : readListWith finish fuel ending openBrackets lexemes = .ok (ns, rest)) :
    Takes lexemes rest := by
  induction fuel generalizing ending openBrackets lexemes ns rest with
  | zero => cases h
  | succ fuel ih =>
    obtain ⟨hc, -⟩ | ⟨-, first, middle, more, hi, hm, -⟩ := (readListWith_iff finish).mp h
    · exact close?_takes hc
    · exact (hi.takes fun _ _ _ _ h => ih h).trans (ih hm)

/-- Every token of a text that can be read is meaningful. -/
theorem meaningful_of_read {text : String} (h : read text = .ok ns) :
    ∀ l ∈ (lex text).items, l.token.Meaningful := by
  obtain ⟨⟨ns, rest⟩, hr, -⟩ := bind_eq_ok.mp h
  obtain ⟨taken, htaken, hall⟩ := readListWith_takes hr
  rwa [htaken, eq_nil_of_readListWith hr, List.append_nil]

end FormulaEditor.Tex
