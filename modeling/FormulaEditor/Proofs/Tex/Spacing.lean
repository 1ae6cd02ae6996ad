import FormulaEditor.Proofs.Tex.Lexing
import FormulaEditor.Proofs.Text.Characters
import Mathlib.Data.String.Basic

/-!
# Tokens and the blanks between them

A text is its tokens in turn, with blanks and comments before, between and behind them. Each token
stands at its offset as it is spelled. Which tokens a text has can be told from this alone.
-/

namespace FormulaEditor.Tex

open String (utf8Len)

variable {c : Char} {cs rest front behind gap text : List Char} {o : Nat} {t : Token}
  {lexemes : List Lexeme}

/-! ## Blanks -/

/-- Blanks, and comments with the ends of their lines. -/
inductive IsBlank : List Char → Prop
  | nil : IsBlank []
  | space {c : Char} {cs : List Char} (hc : Unicode.isWhitespace c = true) (h : IsBlank cs) :
    IsBlank (c :: cs)
  | comment {text cs : List Char} (ht : '\n' ∉ text) (h : IsBlank cs) :
    IsBlank ('%' :: (text ++ '\n' :: cs))

/-- What follows the last token: blanks, and maybe a comment that the end of the text cuts off. -/
inductive IsMargin : List Char → Prop
  | blank {cs : List Char} (h : IsBlank cs) : IsMargin cs
  | comment {gap text : List Char} (h : IsBlank gap) (ht : '\n' ∉ text) :
    IsMargin (gap ++ '%' :: text)

theorem IsBlank.append (h : IsBlank gap) (h' : IsBlank cs) : IsBlank (gap ++ cs) := by
  induction h with
  | nil => exact h'
  | space hc _ ih => exact .space hc ih
  | comment ht _ ih =>
    rw [List.cons_append, List.append_assoc, List.cons_append]
    exact .comment ht ih

theorem IsMargin.blank_append (h : IsMargin cs) (hgap : IsBlank gap) : IsMargin (gap ++ cs) := by
  cases h with
  | blank h => exact .blank (hgap.append h)
  | comment h ht =>
    rw [← List.append_assoc]
    exact .comment (hgap.append h) ht

/-- Behind the end of a line, blanks go on as blanks. -/
theorem IsBlank.of_newline (h : IsBlank cs) (hcs : cs = front ++ '\n' :: rest)
    (hfront : '\n' ∉ front) : IsBlank rest := by
  induction h generalizing front with
  | nil => simp at hcs
  | @space c cs _ h ih =>
    cases front with
    | nil =>
      cases hcs
      exact h
    | cons d front =>
      obtain ⟨-, hcs⟩ := List.cons_eq_cons.mp hcs
      exact ih hcs (List.not_mem_of_not_mem_cons hfront)
  | @comment text cs ht h ih =>
    cases front with
    | nil => cases hcs
    | cons d front =>
      obtain ⟨-, hcs⟩ := List.cons_eq_cons.mp hcs
      obtain ⟨-, rfl⟩ := Text.append_cons_inj ht (List.not_mem_of_not_mem_cons hfront) hcs
      exact h

/-- Blanks behind a margin are part of it. -/
theorem IsMargin.append (h : IsMargin cs) (hgap : IsBlank gap) : IsMargin (cs ++ gap) := by
  cases h with
  | blank h => exact .blank (h.append hgap)
  | @comment before text h ht =>
    rw [List.append_assoc, List.cons_append]
    by_cases hline : '\n' ∈ gap
    · obtain ⟨front, rest, rfl, hfront⟩ := List.eq_append_cons_of_mem hline
      rw [← List.append_assoc text]
      refine .blank (h.append (.comment ?_ (hgap.of_newline rfl hfront)))
      simp [ht, hfront]
    · exact .comment h (by simp [ht, hline])

theorem lexFrom_comment (ht : '\n' ∉ text) (o : Nat) :
    lexFrom o .comment (text ++ cs) = lexFrom (o + utf8Len text) .comment cs := by
  induction text generalizing o with
  | nil => rfl
  | cons c text ih =>
    obtain ⟨hc, ht⟩ := List.ne_and_not_mem_of_not_mem_cons ht
    rw [List.cons_append, lexFrom]
    simp only [LexState.step, Ne.symm hc, ↓reduceIte, List.nil_append]
    rw [ih ht, String.utf8Len_cons, Nat.add_assoc, Nat.add_comm c.utf8Size]

theorem lexFrom_percent (o : Nat) :
    lexFrom o .between ('%' :: cs) = lexFrom (o + '%'.utf8Size) .comment cs := by
  have hw : Unicode.isWhitespace '%' = false := by decide
  rw [lexFrom]
  simp [LexState.step, LexState.start, hw]

/-- Blanks have no lexemes. -/
theorem IsBlank.lexFrom_append (h : IsBlank gap) (o : Nat) (cs : List Char) :
    lexFrom o .between (gap ++ cs) = lexFrom (o + utf8Len gap) .between cs := by
  induction h generalizing o with
  | nil => rfl
  | space hc _ ih =>
    rw [List.cons_append, lexFrom_whitespace hc, ih, String.utf8Len_cons, Nat.add_assoc,
      Nat.add_comm _ (utf8Len _)]
  | @comment text rest ht _ ih =>
    rw [List.cons_append, List.append_assoc, lexFrom_percent, lexFrom_comment ht, List.cons_append,
      lexFrom]
    simp only [LexState.step, ↓reduceIte, List.nil_append, ih, String.utf8Len_cons,
      String.utf8Len_append]
    congr 1
    omega

theorem IsBlank.lexed_append (h : IsBlank gap) (cs : List Char) :
    lexed (gap ++ cs) = lexed cs := by
  rw [lexed, h.lexFrom_append, map_token_between]

theorem IsMargin.lexFrom (h : IsMargin cs) (o : Nat) : Tex.lexFrom o .between cs = [] := by
  cases h with
  | blank h => rw [← List.append_nil cs, h.lexFrom_append, Tex.lexFrom, LexState.finish]
  | @comment gap text h ht =>
    rw [h.lexFrom_append, lexFrom_percent, ← List.append_nil text, lexFrom_comment ht, Tex.lexFrom,
      LexState.finish]

theorem IsMargin.lexed (h : IsMargin cs) : Tex.lexed cs = [] := by
  rw [Tex.lexed, h.lexFrom, List.map_nil]

/-! ## Tokens -/

/-- In front of this text, the token is not part of a longer one. -/
inductive Token.Whole : Token → List Char → Prop
  | simple {c : Char} {rest : List Char} (h : Ordinary c) : Whole (LexState.simpleToken c) rest
  | symbol {c : Char} {rest : List Char} (h : c.isAlpha = false) :
    Whole (.command (String.ofList [c])) rest
  | word {word rest : List Char} (hne : word ≠ []) (hw : ∀ c ∈ word, c.isAlpha = true)
    (hc : Closed rest) : Whole (.command (String.ofList word)) rest
  | backslash : Whole (.char '\\') []

theorem chars_simpleToken (c : Char) : (LexState.simpleToken c).chars = [c] := by
  unfold LexState.simpleToken
  split <;> rfl

theorem Token.Whole.lexFrom_append (h : t.Whole rest) (o : Nat) :
    lexFrom o .between (t.chars ++ rest) =
      ⟨t, o⟩ :: lexFrom (o + utf8Len t.chars) .between rest := by
  cases h with
  | @simple c _ h =>
    rw [chars_simpleToken, List.singleton_append, lexFrom_cons h, String.utf8Len_cons,
      String.utf8Len_nil, Nat.zero_add]
  | symbol h => simpa [Token.chars] using lexFrom_escape h o
  | word hne hw hc => simpa [Token.chars] using lexFrom_word hne hw hc o
  | backslash => rfl

theorem Token.Whole.lexed_append (h : t.Whole rest) :
    lexed (t.chars ++ rest) = t :: lexed rest := by
  rw [lexed, h.lexFrom_append, List.map_cons, map_token_between]

theorem chars_commandOf (letters : List Char) :
    (LexState.commandOf letters).chars = '\\' :: letters.reverse := by
  simp [LexState.commandOf, Token.chars]

theorem Token.utf8Len_chars_pos (t : Token) : 0 < utf8Len t.chars := by
  refine Nat.pos_of_ne_zero fun h => ?_
  rw [String.utf8Len_eq_zero] at h
  cases t <;> cases h

/-! ## Texts -/

/-- From an offset on, the text is the lexemes in turn, with blanks around them. -/
inductive Spaced : Nat → List Char → List Lexeme → Prop
  | margin {o : Nat} {cs : List Char} (h : IsMargin cs) : Spaced o cs []
  | lexeme {o : Nat} {gap rest : List Char} {t : Token} {lexemes : List Lexeme}
    (hgap : IsBlank gap) (ht : t.Whole rest)
    (h : Spaced (o + utf8Len gap + utf8Len t.chars) rest lexemes) :
    Spaced o (gap ++ (t.chars ++ rest)) (⟨t, o + utf8Len gap⟩ :: lexemes)

/-- The first token and the gap in front of it come before the rest. -/
theorem add_utf8Len : o + utf8Len (gap ++ (t.chars ++ rest)) =
    o + utf8Len gap + utf8Len t.chars + utf8Len rest := by
  simp only [String.utf8Len_append]
  omega

namespace Spaced

theorem token (ht : t.Whole rest) (h : Spaced (o + utf8Len t.chars) rest lexemes) :
    Spaced o (t.chars ++ rest) (⟨t, o⟩ :: lexemes) :=
  .lexeme .nil ht h

theorem command {letters : List Char} (ht : (LexState.commandOf letters).Whole rest)
    (h : Spaced (o + 1 + utf8Len letters) rest lexemes) :
    Spaced o ('\\' :: (letters.reverse ++ rest)) (⟨LexState.commandOf letters, o⟩ :: lexemes) := by
  have hsize : '\\'.utf8Size = 1 := by decide
  have hlen : o + utf8Len (LexState.commandOf letters).chars = o + 1 + utf8Len letters := by
    rw [chars_commandOf, String.utf8Len_cons, String.utf8Len_reverse, hsize]
    omega
  rw [← List.cons_append, ← chars_commandOf]
  exact .token ht (hlen ▸ h)

/-- Blanks in front of a text are in front of its first token. -/
theorem blank (hgap : IsBlank gap) (h : Spaced (o + utf8Len gap) cs lexemes) :
    Spaced o (gap ++ cs) lexemes := by
  cases h with
  | margin h => exact .margin (h.blank_append hgap)
  | lexeme hgap' ht h =>
    rw [← List.append_assoc, Nat.add_assoc, ← String.utf8Len_append]
    rw [Nat.add_assoc o, ← String.utf8Len_append] at h
    exact .lexeme (hgap.append hgap') ht h

/-- The lexemes are those that the text is lexed as. -/
theorem lexFrom (h : Spaced o cs lexemes) : Tex.lexFrom o .between cs = lexemes := by
  induction h with
  | margin h => exact h.lexFrom _
  | lexeme hgap ht h ih => rw [hgap.lexFrom_append, ht.lexFrom_append, ih]

theorem lexed (h : Spaced o cs lexemes) : Tex.lexed cs = lexemes.map Lexeme.token := by
  rw [← map_token_between o, h.lexFrom]

/-- Every token stands at its offset, and is not part of a longer one there. -/
theorem exists_split (h : Spaced o cs lexemes) : ∀ l ∈ lexemes, ∃ front behind,
    cs = front ++ l.token.chars ++ behind ∧ o + utf8Len front = l.offset ∧
      l.token.Whole behind := by
  induction h with
  | margin => simp
  | @lexeme o gap rest t lexemes hgap ht h ih =>
    rw [List.forall_mem_cons]
    refine ⟨⟨gap, rest, by simp, rfl, ht⟩, fun l hl => ?_⟩
    obtain ⟨front, behind, rfl, ho, hwhole⟩ := ih l hl
    refine ⟨gap ++ t.chars ++ front, behind, by simp, ?_, hwhole⟩
    rw [← ho]
    simp only [String.utf8Len_append]
    omega

theorem le_offset (h : Spaced o cs lexemes) : ∀ l ∈ lexemes, o ≤ l.offset := by
  intro l hl
  obtain ⟨front, behind, -, ho, -⟩ := h.exists_split l hl
  omega

end Spaced

/-! ## The lexer -/

theorem spaced_start (hbetween : Spaced (o + c.utf8Size) cs (lexFrom (o + c.utf8Size) .between cs))
    (hcomment : Spaced o ('%' :: cs) (lexFrom (o + 1) .comment cs))
    (hescape : Spaced o ('\\' :: cs) (lexFrom (o + 1) (.escape o) cs)) :
    Spaced o (c :: cs)
      ((LexState.start o c).1 ++ lexFrom (o + c.utf8Size) (LexState.start o c).2 cs) := by
  unfold LexState.start
  split
  · rename_i hw
    have hblank : IsBlank [c] := .space hw .nil
    exact Spaced.blank hblank (by simpa using hbetween)
  · split
    · rename_i hc
      subst hc
      exact hcomment
    · split
      · rename_i hc
        subst hc
        exact hescape
      · rename_i hw hpercent hbackslash
        have hwhole : (LexState.simpleToken c).Whole cs :=
          .simple ⟨by simpa using hw, hpercent, hbackslash⟩
        have htoken := Spaced.token (o := o) hwhole
          (by simpa [chars_simpleToken] using hbetween)
        simpa [chars_simpleToken] using htoken

/-- Whatever the lexer is in the middle of, the text from there on is the lexemes in turn. -/
theorem spaced_lexFrom (cs : List Char) :
    (∀ o, Spaced o cs (lexFrom o .between cs)) ∧
    (∀ o text, '\n' ∉ text →
      Spaced o ('%' :: (text ++ cs)) (lexFrom (o + 1 + utf8Len text) .comment cs)) ∧
    (∀ o, Spaced o ('\\' :: cs) (lexFrom (o + 1) (.escape o) cs)) ∧
    ∀ o letters, letters ≠ [] → (∀ c ∈ letters, c.isAlpha = true) →
      Spaced o ('\\' :: (letters.reverse ++ cs))
        (lexFrom (o + 1 + utf8Len letters) (.word o letters) cs) := by
  induction cs with
  | nil =>
    refine ⟨fun _ => .margin (.blank .nil), fun o text ht => ?_, fun o => .token .backslash
      (.margin (.blank .nil)), fun o letters hne hl => ?_⟩
    · rw [List.append_nil]
      exact .margin (.comment .nil ht)
    · exact .command (.word (by simpa using hne) (by simpa using hl) rfl) (.margin (.blank .nil))
  | cons c cs ih =>
    obtain ⟨hbetween, hcomment, hescape, hword⟩ := ih
    have hstart (o : Nat) : Spaced o (c :: cs) (lexFrom o .between (c :: cs)) :=
      spaced_start (hbetween _) (by simpa using hcomment o [] (by simp)) (hescape o)
    refine ⟨hstart, fun o text ht => ?_, fun o => ?_, fun o letters hne hl => ?_⟩
    · simp only [lexFrom, LexState.step, List.nil_append]
      split
      · rename_i hc
        subst hc
        have hlen : o + 1 + utf8Len text + '\n'.utf8Size =
            o + utf8Len ('%' :: (text ++ ['\n'])) := by
          have hsize : '%'.utf8Size = 1 := by decide
          simp only [String.utf8Len_cons, String.utf8Len_append, String.utf8Len_nil, hsize]
          omega
        have hblank : IsBlank ('%' :: (text ++ ['\n'])) := .comment ht .nil
        have hnext := hbetween (o + 1 + utf8Len text + '\n'.utf8Size)
        rw [hlen] at hnext ⊢
        simpa using Spaced.blank hblank hnext
      · rename_i hc
        have := hcomment o (text ++ [c]) (by simp [ht, Ne.symm hc])
        simpa [Nat.add_assoc] using this
    · simp only [lexFrom, LexState.step]
      split
      · rename_i hc
        simpa using hword o [c] (by simp) (by simpa using hc)
      · rename_i hc
        have hsymbol : (LexState.commandOf [c]).Whole cs := .symbol (by simpa using hc)
        exact .command hsymbol (by simpa using hbetween (o + 1 + c.utf8Size))
    · simp only [lexFrom, LexState.step]
      split
      · rename_i hc
        have := hword o (c :: letters) (by simp) (by simpa [hc] using hl)
        simpa [Nat.add_assoc] using this
      · rename_i hc
        exact .command (.word (by simpa using hne) (by simpa using hl)
          (by simpa [Closed] using hc)) (hstart _)

theorem spaced_lex (text : String) : Spaced 0 text.toList (lex text).items :=
  (spaced_lexFrom text.toList).1 0

end FormulaEditor.Tex
