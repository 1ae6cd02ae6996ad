import FormulaEditor.Proofs.Tex.Matching
import FormulaEditor.Proofs.Tex.Spacing

/-!
# Where errors point

An error of formula text stands at a token, or at the end of the text. What it says is there stands
there in the text.
-/

namespace FormulaEditor.Tex

open String (utf8Len)

variable {text : String} {lexemes : Lexemes} {error : ParseError} {offset : Nat}

/-- The text goes on with this piece at the offset. -/
def ContinuesAt (text : String) (offset : Nat) (piece : String) : Prop :=
  ∃ before after, text = before ++ piece ++ after ∧ before.utf8ByteSize = offset

/-- The token stands at its offset, and is not part of a longer one there. -/
def Lexeme.StandsIn (l : Lexeme) (text : String) : Prop :=
  ∃ before after, text = before ++ l.token.text ++ after ∧ before.utf8ByteSize = l.offset ∧
    l.token.Whole after.toList

/-- What the fault names stands at the offset, and the end of the text is missed at the end. -/
def Fault.Shows (text : String) (offset : Nat) : Fault → Prop
  | unexpectedChar c => ContinuesAt text offset (String.singleton c)
  | unexpectedToken token => ContinuesAt text offset token.text
  | unknownCommand name => ContinuesAt text offset ("\\" ++ name)
  | expected _ => True
  | unexpectedEnd _ => offset = text.utf8ByteSize
  | emptyOperatorName => True

theorem ContinuesAt.le {piece : String} (h : ContinuesAt text offset piece) :
    offset ≤ text.utf8ByteSize := by
  obtain ⟨before, after, rfl, rfl⟩ := h
  simp only [String.utf8ByteSize_append]
  omega

/-- An offset at which the text goes on lies between two characters. -/
theorem ContinuesAt.boundary {piece : String} (h : ContinuesAt text offset piece) :
    ContinuesAt text offset "" := by
  obtain ⟨before, after, rfl, ho⟩ := h
  exact ⟨before, piece ++ after, by rw [String.append_empty, String.append_assoc], ho⟩

theorem continuesAt_finish (text : String) : ContinuesAt text text.utf8ByteSize "" :=
  ⟨text, "", by simp, rfl⟩

/-- Every token stands at its offset. -/
theorem standsIn_lex : ∀ l ∈ (lex text).items, l.StandsIn text := by
  intro l hl
  obtain ⟨front, behind, htext, ho, hwhole⟩ := (spaced_lex text).exists_split l hl
  refine ⟨String.ofList front, String.ofList behind, ?_, ?_, by simpa using hwhole⟩
  · rw [← String.toList_inj]
    simpa [Token.text] using htext
  · rw [String.utf8ByteSize_ofList, ← ho, Nat.zero_add]

theorem Lexeme.StandsIn.continuesAt {l : Lexeme} (h : l.StandsIn text) :
    ContinuesAt text l.offset l.token.text := by
  obtain ⟨before, after, htext, ho, -⟩ := h
  exact ⟨before, after, htext, ho⟩

/-- A fault found at a lexeme names its token, and a fault found at the end names none. -/
theorem readLexemes_error (h : readLexemes lexemes = .error error) :
    (∃ l ∈ lexemes.items, error.offset = l.offset ∧ error.fault.Names l.token) ∨
      error.offset = lexemes.finish ∧ error.fault.AtEnd := by
  have hsame : List.Forall₂ (fun a b => a = b ∧ a ∈ lexemes.items) lexemes.items lexemes.items :=
    List.forall₂_same.mpr fun l hl => ⟨rfl, hl⟩
  rcases readLexemes_alike (fun ⟨hab, _⟩ => by rw [hab]) hsame with
    ⟨ns, hns, -⟩ | ⟨e, e', he, -, hpoints⟩
  · rw [h] at hns
    cases hns
  · rw [h] at he
    cases he
    cases hpoints with
    | lexeme hl hf => exact .inl ⟨_, hl.2, rfl, hf⟩
    | finish hf => exact .inr ⟨rfl, hf⟩

theorem Fault.Names.shows {fault : Fault} {token : Token} (h : fault.Names token)
    (htext : ContinuesAt text offset token.text) : fault.Shows text offset := by
  cases fault with
  | unexpectedChar c | unexpectedToken t | unknownCommand name =>
    cases h
    simpa [Fault.Shows, Token.text, Token.chars] using htext
  | expected what | emptyOperatorName => trivial
  | unexpectedEnd what => exact h.elim

theorem Fault.AtEnd.shows {fault : Fault} (h : fault.AtEnd) :
    fault.Shows text text.utf8ByteSize := by
  cases fault with
  | unexpectedChar c | unexpectedToken t | unknownCommand name => exact h.elim
  | expected what | emptyOperatorName => trivial
  | unexpectedEnd what => rfl

/-- An error points at a token or at the end of the text, and what it names stands there. -/
theorem read_error (h : read text = .error error) :
    ((∃ l ∈ (lex text).items, error.offset = l.offset) ∨ error.offset = (lex text).finish) ∧
      ContinuesAt text error.offset "" ∧ error.offset ≤ text.utf8ByteSize ∧
      error.fault.Shows text error.offset := by
  rcases readLexemes_error h with ⟨l, hl, ho, hf⟩ | ⟨ho, hf⟩
  · have htext := (standsIn_lex l hl).continuesAt
    rw [ho]
    exact ⟨.inl ⟨l, hl, rfl⟩, htext.boundary, htext.le, hf.shows htext⟩
  · rw [ho]
    exact ⟨.inr rfl, continuesAt_finish text, Nat.le_refl _, hf.shows⟩

/-- A comment moves the token that an error points at. -/
theorem read_error_afterComment :
    read "π%\n\\oops" = .error ⟨.unknownCommand "oops", 4⟩ ∧
      ContinuesAt "π%\n\\oops" 4 ("\\" ++ "oops") := by
  have h : read "π%\n\\oops" = .error ⟨.unknownCommand "oops", 4⟩ := by rfl
  exact ⟨h, (read_error h).2.2.2⟩

end FormulaEditor.Tex
