import FormulaEditor.Tex.Lexer
import Mathlib.Data.String.Basic
import Mathlib.Tactic.SplitIfs

/-!
# Lexing from the front

The tokens of a text do not depend on where it begins. So what the first characters of a text are
lexed as can be taken off its front, and the tokens of the rest stay what they are.
-/

namespace FormulaEditor.Tex

open String (utf8Len)

/-- The tokens of a text. -/
def lexed (cs : List Char) : List Token :=
  (lexFrom 0 .between cs).map Lexeme.token

section Lexing

variable {c : Char} {cs rest : List Char}

/-- Where a token begins does not matter to what it is. -/
theorem map_token_lexFrom (o o' : Nat) (cs : List Char) :
    (lexFrom o .between cs).map Lexeme.token = (lexFrom o' .between cs).map Lexeme.token ∧
      (lexFrom o .comment cs).map Lexeme.token = (lexFrom o' .comment cs).map Lexeme.token ∧
      (∀ s s', (lexFrom o (.escape s) cs).map Lexeme.token =
        (lexFrom o' (.escape s') cs).map Lexeme.token) ∧
      ∀ s s' letters, (lexFrom o (.word s letters) cs).map Lexeme.token =
        (lexFrom o' (.word s' letters) cs).map Lexeme.token := by
  induction cs generalizing o o' with
  | nil => simp [lexFrom, LexState.finish]
  | cons c cs ih =>
    obtain ⟨hbetween, hcomment, hescape, hword⟩ := ih (o + c.utf8Size) (o' + c.utf8Size)
    have hstart : ((LexState.start o c).1.map Lexeme.token ++
          (lexFrom (o + c.utf8Size) (LexState.start o c).2 cs).map Lexeme.token) =
        ((LexState.start o' c).1.map Lexeme.token ++
          (lexFrom (o' + c.utf8Size) (LexState.start o' c).2 cs).map Lexeme.token) := by
      unfold LexState.start
      split_ifs
      · simpa using hbetween
      · simpa using hcomment
      · simpa using hescape o o'
      · simpa using hbetween
    refine ⟨?_, ?_, fun s s' => ?_, fun s s' letters => ?_⟩
    · simpa [lexFrom, LexState.step] using hstart
    · simp only [lexFrom, LexState.step, List.nil_append]
      split
      · exact hbetween
      · exact hcomment
    · simp only [lexFrom, LexState.step]
      split
      · simpa using hword s s' [c]
      · simpa using hbetween
    · simp only [lexFrom, LexState.step]
      split
      · simpa using hword s s' (c :: letters)
      · simpa using hstart

theorem map_token_between (o : Nat) :
    (lexFrom o .between cs).map Lexeme.token = lexed cs :=
  (map_token_lexFrom o 0 cs).1

theorem map_token_lex (text : String) :
    (lex text).items.map Lexeme.token = lexed text.toList := by
  rw [lex, lexed]

/-- A character that is a token of its own. -/
structure Ordinary (c : Char) : Prop where
  isWhitespace : Unicode.isWhitespace c = false
  ne_percent : c ≠ '%'
  ne_backslash : c ≠ '\\'

/-- No letter goes on a control word that ends here. -/
def Closed (cs : List Char) : Prop :=
  cs.head?.any Char.isAlpha = false

theorem start_backslash (o : Nat) : LexState.start o '\\' = ([], .escape o) := by
  have hw : Unicode.isWhitespace '\\' = false := by decide
  simp [LexState.start, hw]

/-! ## Lexemes at the front -/

theorem lexFrom_cons (h : Ordinary c) (o : Nat) : lexFrom o .between (c :: cs) =
    ⟨LexState.simpleToken c, o⟩ :: lexFrom (o + c.utf8Size) .between cs := by
  rw [lexFrom]
  simp only [LexState.step, LexState.start, h.isWhitespace, h.ne_percent, h.ne_backslash,
    Bool.false_eq_true, ↓reduceIte, List.cons_append, List.nil_append]

theorem lexFrom_whitespace (h : Unicode.isWhitespace c = true) (o : Nat) :
    lexFrom o .between (c :: cs) = lexFrom (o + c.utf8Size) .between cs := by
  rw [lexFrom]
  simp only [LexState.step, LexState.start, h, ↓reduceIte, List.nil_append]

theorem lexFrom_escape (h : c.isAlpha = false) (o : Nat) : lexFrom o .between ('\\' :: c :: cs) =
    ⟨.command (String.ofList [c]), o⟩ :: lexFrom (o + utf8Len ['\\', c]) .between cs := by
  have hlen : o + utf8Len ['\\', c] = o + '\\'.utf8Size + c.utf8Size := by
    simp only [String.utf8Len_cons, String.utf8Len_nil]
    omega
  rw [hlen, lexFrom]
  simp only [LexState.step, start_backslash, List.nil_append, lexFrom, h, Bool.false_eq_true,
    ↓reduceIte, List.cons_append]
  rfl

theorem lexFrom_letters {letters word : List Char} (hw : ∀ c ∈ word, c.isAlpha) (hc : Closed cs)
    (o s : Nat) : lexFrom o (.word s letters) (word ++ cs) =
      ⟨LexState.commandOf (word.reverse ++ letters), s⟩ ::
        lexFrom (o + utf8Len word) .between cs := by
  induction word generalizing o letters with
  | nil =>
    cases cs with
    | nil => rfl
    | cons c cs =>
      have hc : c.isAlpha = false := by simpa [Closed] using hc
      simp only [List.nil_append, List.reverse_nil, lexFrom, LexState.step, hc,
        Bool.false_eq_true, ↓reduceIte, List.cons_append, String.utf8Len_nil, Nat.add_zero]
  | cons c word ih =>
    have hc : c.isAlpha := hw c (by simp)
    simp only [List.cons_append, lexFrom, LexState.step, hc, ↓reduceIte, List.nil_append]
    rw [ih fun c hc => hw c (by simp [hc]), String.utf8Len_cons]
    simp [Nat.add_assoc, Nat.add_comm]

/-- A control word ends where no letter follows. -/
theorem lexFrom_word {word : List Char} (hn : word ≠ []) (hw : ∀ c ∈ word, c.isAlpha)
    (hc : Closed cs) (o : Nat) : lexFrom o .between ('\\' :: (word ++ cs)) =
      ⟨.command (String.ofList word), o⟩ :: lexFrom (o + utf8Len ('\\' :: word)) .between cs := by
  cases word with
  | nil => exact absurd rfl hn
  | cons c word =>
    have hcw : c.isAlpha := hw c (by simp)
    have hlen : o + utf8Len ('\\' :: c :: word) =
        o + '\\'.utf8Size + c.utf8Size + utf8Len word := by
      simp only [String.utf8Len_cons]
      omega
    rw [hlen, lexFrom]
    simp only [LexState.step, start_backslash, List.nil_append, List.cons_append, lexFrom, hcw,
      ↓reduceIte]
    rw [lexFrom_letters (fun c hc => hw c (by simp [hc])) hc]
    simp [LexState.commandOf]

/-! ## Tokens at the front -/

theorem lexed_nil : lexed [] = [] := rfl

theorem lexed_cons (h : Ordinary c) : lexed (c :: cs) = LexState.simpleToken c :: lexed cs := by
  rw [lexed, lexFrom_cons h, List.map_cons, map_token_between]

theorem lexed_whitespace (h : Unicode.isWhitespace c = true) : lexed (c :: cs) = lexed cs := by
  rw [lexed, lexFrom_whitespace h, map_token_between]

theorem lexed_space : lexed (' ' :: cs) = lexed cs :=
  lexed_whitespace (by decide)

theorem lexed_escape (h : c.isAlpha = false) :
    lexed ('\\' :: c :: cs) = .command (String.ofList [c]) :: lexed cs := by
  rw [lexed, lexFrom_escape h, List.map_cons, map_token_between]

theorem lexed_word {word : List Char} (hn : word ≠ []) (hw : ∀ c ∈ word, c.isAlpha)
    (hc : Closed cs) :
    lexed ('\\' :: (word ++ cs)) = .command (String.ofList word) :: lexed cs := by
  rw [lexed, lexFrom_word hn hw hc, List.map_cons, map_token_between]

end Lexing

end FormulaEditor.Tex
