import FormulaEditor.Proofs.Tex.Matching
import FormulaEditor.Proofs.Tex.Spacing

/-!
# Blanks mean nothing

Blanks and comments may be put next to any token. The text has the same tokens as before, so it is
read as the same notation, or refused for the same fault.
-/

namespace FormulaEditor.Tex

open String (utf8Len)

variable {cs rest front behind blank : List Char} {o : Nat} {t : Token} {lexemes : List Lexeme}

/-- A place next to a token, or at the end of the text. It is not right behind a backslash that ends
the text, as a blank there would become the backslash's name. -/
inductive Lexemes.Joint (lexemes : Lexemes) : Nat → Prop
  | before {l : Lexeme} (h : l ∈ lexemes.items) : Joint lexemes l.offset
  | behind {l : Lexeme} (h : l ∈ lexemes.items) (hl : l.token ≠ .char '\\') :
    Joint lexemes (l.offset + l.token.text.utf8ByteSize)
  | finish (h : ∀ l ∈ lexemes.items, l.token ≠ .char '\\') : Joint lexemes lexemes.finish

/-! ## Places in a text -/

section Beginnings

variable {front' behind' : List Char} (h : front ++ behind = front' ++ behind')

include h

/-- Of two beginnings of a text, the one with fewer bytes begins the other. -/
theorem append_of_utf8Len_le (hle : utf8Len front ≤ utf8Len front') :
    ∃ middle, front' = front ++ middle ∧ behind = middle ++ behind' := by
  rcases List.append_eq_append_iff.mp h with h | ⟨middle, rfl, rfl⟩
  · exact h
  · obtain rfl : middle = [] := by
      rw [← String.utf8Len_eq_zero]
      rw [String.utf8Len_append] at hle
      omega
    exact ⟨[], by simp, by simp⟩

/-- A text has one beginning of each number of bytes. -/
theorem append_inj_of_utf8Len (heq : utf8Len front = utf8Len front') :
    front = front' ∧ behind = behind' := by
  obtain ⟨middle, rfl, rfl⟩ := append_of_utf8Len_le h heq.le
  obtain rfl : middle = [] := by
    rw [← String.utf8Len_eq_zero]
    rw [String.utf8Len_append] at heq
    omega
  simp

end Beginnings

theorem isAlpha_of_isWhitespace {c : Char} (h : Unicode.isWhitespace c = true) :
    c.isAlpha = false :=
  Text.of_contains (p := fun c => c.isAlpha = false) (by decide +kernel) h

/-- Blanks do not go on a control word. -/
theorem IsBlank.closed_append (h : IsBlank blank) (hc : Closed cs) : Closed (blank ++ cs) := by
  cases h with
  | nil => exact hc
  | space hw _ => simpa [Closed] using isAlpha_of_isWhitespace hw
  | comment => rfl

/-- Blanks further behind do not make a token part of a longer one. -/
theorem Token.Whole.insert (h : t.Whole (front ++ behind)) (hblank : IsBlank blank)
    (ht : t ≠ .char '\\') : t.Whole (front ++ (blank ++ behind)) := by
  generalize hrest : front ++ behind = rest at h
  cases h with
  | simple h => exact .simple h
  | symbol h => exact .symbol h
  | word hne hw hc =>
    subst hrest
    refine .word hne hw ?_
    cases front with
    | nil => exact hblank.closed_append hc
    | cons c front => simpa [Closed] using hc
  | backslash => exact absurd rfl ht

/-- What follows a token is told by its first character. -/
theorem Token.Whole.append (h : t.Whole rest) (hne : rest ≠ []) (more : List Char) :
    t.Whole (rest ++ more) := by
  cases h with
  | simple h => exact .simple h
  | symbol h => exact .symbol h
  | word hne' hw hc =>
    refine .word hne' hw ?_
    obtain ⟨c, rest, rfl⟩ := List.exists_cons_of_ne_nil hne
    simpa [Closed] using hc
  | backslash => exact absurd rfl hne

theorem Token.Whole.insert_nil (h : t.Whole behind) (hblank : IsBlank blank)
    (ht : t ≠ .char '\\') : t.Whole (blank ++ behind) := by
  have h : t.Whole ([] ++ behind) := h
  exact h.insert hblank ht

/-- A backslash without a name stands at the end of the text. -/
theorem Token.Whole.eq_nil (h : t.Whole rest) (ht : t = .char '\\') : rest = [] := by
  cases h with
  | @simple c _ h =>
    have hc : [c] = ['\\'] := by rw [← chars_simpleToken, ht]; rfl
    exact absurd (List.singleton_inj.mp hc) h.ne_backslash
  | symbol h => cases ht
  | word hne hw hc => cases ht
  | backslash => rfl

/-! ## Joints -/

/-- A joint of a text is next to its first token, or is a joint of what follows. -/
theorem Lexemes.Joint.cons {l : Lexeme} {finish p : Nat}
    (h : Lexemes.Joint ⟨l :: lexemes, finish⟩ p) :
    p = l.offset ∨ (p = l.offset + utf8Len l.token.chars ∧ l.token ≠ .char '\\') ∨
      (Lexemes.Joint ⟨lexemes, finish⟩ p ∧ (lexemes = [] → l.token ≠ .char '\\')) := by
  cases h with
  | @before l' h =>
    rcases List.mem_cons.mp h with rfl | h
    · exact .inl rfl
    · exact .inr (.inr ⟨.before h, fun hnil => absurd h (by simp [hnil])⟩)
  | @behind l' h hl =>
    rcases List.mem_cons.mp h with rfl | h
    · exact .inr (.inl ⟨by rw [Token.text, String.utf8ByteSize_ofList], hl⟩)
    · exact .inr (.inr ⟨.behind h hl, fun hnil => absurd h (by simp [hnil])⟩)
  | finish h =>
    obtain ⟨hl, h⟩ := List.forall_mem_cons.mp h
    exact .inr (.inr ⟨.finish h, fun _ => hl⟩)

namespace Spaced

theorem eq_nil (h : Spaced o [] lexemes) : lexemes = [] := by
  generalize hcs : [] = cs at h
  cases h with
  | margin => rfl
  | @lexeme _ gap rest t =>
    have := t.utf8Len_chars_pos
    simp_all

theorem le_joint (h : Spaced o cs lexemes) {p : Nat}
    (hj : Lexemes.Joint ⟨lexemes, o + utf8Len cs⟩ p) : o ≤ p := by
  cases hj with
  | before hl => exact h.le_offset _ hl
  | behind hl _ => exact Nat.le_trans (h.le_offset _ hl) (Nat.le_add_right _ _)
  | finish => exact Nat.le_add_right _ _

/-- The text has the same tokens with blanks at a joint. -/
theorem lexed_insert (h : Spaced o cs lexemes) (hblank : IsBlank blank)
    (hcs : cs = front ++ behind)
    (hj : Lexemes.Joint ⟨lexemes, o + utf8Len cs⟩ (o + utf8Len front)) :
    Tex.lexed (front ++ (blank ++ behind)) = lexemes.map Lexeme.token := by
  induction h generalizing front with
  | @margin o cs h =>
    have hend : utf8Len cs = utf8Len front := by
      generalize hp : o + utf8Len front = p at hj
      cases hj with
      | before hl | behind hl => cases hl
      | finish => exact (Nat.add_left_cancel hp).symm
    have hcs : cs ++ [] = front ++ behind := by rw [List.append_nil, hcs]
    obtain ⟨rfl, rfl⟩ := append_inj_of_utf8Len hcs hend
    simpa using (h.append hblank).lexed
  | @lexeme o gap rest t lexemes hgap ht h ih =>
    rw [add_utf8Len] at hj
    rcases hj.cons with hplace | ⟨hplace, hne⟩ | ⟨hj, hnil⟩
    · -- In front of the first token the blanks are more of its gap.
      obtain ⟨rfl, rfl⟩ := append_inj_of_utf8Len hcs (Nat.add_left_cancel hplace).symm
      rw [hgap.lexed_append, hblank.lexed_append, ht.lexed_append, h.lexed, List.map_cons]
    · -- Right behind it they are in front of the rest.
      rw [← List.append_assoc] at hcs
      obtain ⟨rfl, rfl⟩ := append_inj_of_utf8Len hcs (by
        rw [String.utf8Len_append]
        simp only at hplace
        omega)
      have hwhole : t.Whole (blank ++ rest) := ht.insert_nil hblank hne
      rw [List.append_assoc, hgap.lexed_append, hwhole.lexed_append, hblank.lexed_append, h.lexed,
        List.map_cons]
    · -- Further behind they are at a joint of the rest.
      have hle := h.le_joint hj
      rw [← List.append_assoc] at hcs
      obtain ⟨middle, rfl, rfl⟩ := append_of_utf8Len_le hcs (by
        rw [String.utf8Len_append]
        omega)
      have hne : t ≠ .char '\\' := fun hbackslash =>
        hnil (ht.eq_nil hbackslash ▸ h).eq_nil hbackslash
      have hrest := ih rfl (by simpa [Nat.add_assoc] using hj)
      have hwhole := ht.insert hblank hne
      rw [List.append_assoc, List.append_assoc, hgap.lexed_append, hwhole.lexed_append, hrest,
        List.map_cons]

/-- Blanks behind a text are behind its last token. -/
theorem append_blank (h : Spaced o cs lexemes) (hblank : IsBlank blank)
    (hne : ∀ l ∈ lexemes, l.token ≠ .char '\\') : Spaced o (cs ++ blank) lexemes := by
  induction h with
  | margin h => exact .margin (h.append hblank)
  | @lexeme o gap rest t lexemes hgap ht h ih =>
    obtain ⟨hfirst, hne⟩ := List.forall_mem_cons.mp hne
    have ht : t.Whole (rest ++ []) := by simpa using ht
    have hwhole : t.Whole (rest ++ blank) := by simpa using ht.insert hblank hfirst
    rw [List.append_assoc, List.append_assoc]
    exact .lexeme hgap hwhole (ih hne)

/-- A backslash without a name takes the first character put behind it for its name. -/
theorem append_escape (h : Spaced o cs lexemes) {c : Char} (hc : c.isAlpha = false)
    (hblank : IsBlank blank) {p : Nat} (hp : ⟨.char '\\', p⟩ ∈ lexemes) :
    ∃ lexemes', Spaced o (cs ++ c :: blank) lexemes' ∧
      ⟨.command (String.ofList [c]), p⟩ ∈ lexemes' := by
  induction h with
  | margin => cases hp
  | @lexeme o gap rest t lexemes hgap ht h ih =>
    by_cases hfirst : t = .char '\\'
    · obtain rfl := ht.eq_nil hfirst
      obtain rfl := h.eq_nil
      obtain rfl : p = o + utf8Len gap := by simpa [hfirst] using hp
      have hsymbol : (Token.command (String.ofList [c])).Whole blank := .symbol hc
      have htext : gap ++ (t.chars ++ []) ++ c :: blank =
          gap ++ ((Token.command (String.ofList [c])).chars ++ blank) := by
        simp [hfirst, Token.chars]
      rw [htext]
      exact ⟨_, .lexeme hgap hsymbol (.margin (.blank hblank)), List.mem_cons_self⟩
    · have hp : ⟨.char '\\', p⟩ ∈ lexemes := by
        simpa [Ne.symm hfirst] using hp
      have hrest : rest ≠ [] := by
        rintro rfl
        rw [h.eq_nil] at hp
        cases hp
      obtain ⟨lexemes', hnext, hmem⟩ := ih hp
      rw [List.append_assoc, List.append_assoc]
      exact ⟨_, .lexeme hgap (ht.append hrest _) hnext, List.mem_cons_of_mem _ hmem⟩

end Spaced

/-! ## Formula text -/

/-- The text with blanks at a joint has the tokens of the text. -/
theorem map_token_lex_insert {before blank after : String} (hblank : IsBlank blank.toList)
    (hj : (lex (before ++ after)).Joint before.utf8ByteSize) :
    (lex (before ++ blank ++ after)).items.map Lexeme.token =
      (lex (before ++ after)).items.map Lexeme.token := by
  have h := spaced_lex (before ++ after)
  rw [String.toList_append] at h
  rw [← h.lexed_insert hblank rfl ?_, lex, String.toList_append, String.toList_append,
    List.append_assoc]
  · rfl
  · simpa [String.utf8Len_toList, lex] using hj

/-- Texts with the same tokens are read the same, or refused for the same fault. -/
theorem read_eq_of_map_token_eq {text text' : String}
    (h : (lex text).items.map Lexeme.token = (lex text').items.map Lexeme.token) :
    (read text).mapError ParseError.fault = (read text').mapError ParseError.fault := by
  have hl : List.Forall₂ (fun a b : Lexeme => a.token = b.token) (lex text).items
      (lex text').items := by
    rwa [← List.forall₂_eq_eq_eq, List.forall₂_map_left_iff, List.forall₂_map_right_iff] at h
  rcases readLexemes_alike (fun h => h) hl with ⟨ns, hr, hr'⟩ | ⟨e, e', hr, hr', hpoints⟩
  · rw [read, read, hr, hr']
  · rw [read, read, hr, hr']
    cases hpoints <;> rfl

/-- Blanks and comments next to a token mean nothing: the text has the same tokens, and it is read
as the same notation or refused for the same fault. -/
theorem read_insert_blank {before blank after : String} (hblank : IsBlank blank.toList)
    (hj : (lex (before ++ after)).Joint before.utf8ByteSize) :
    (lex (before ++ blank ++ after)).items.map Lexeme.token =
        (lex (before ++ after)).items.map Lexeme.token ∧
      (read (before ++ blank ++ after)).mapError ParseError.fault =
        (read (before ++ after)).mapError ParseError.fault := by
  have htokens := map_token_lex_insert hblank hj
  exact ⟨htokens, read_eq_of_map_token_eq htokens⟩

/-- A comment between a control word and a brace that closes nothing. -/
theorem read_insert_blank_command :
    let fault (text : String) := (read text).mapError ParseError.fault
    IsBlank " %a\n".toList ∧ (lex ("\\pi" ++ "\x7d")).Joint "\\pi".utf8ByteSize ∧
      fault ("\\pi" ++ " %a\n" ++ "\x7d") = fault ("\\pi" ++ "\x7d") := by
  have hcomment : IsBlank ('%' :: (['a'] ++ ['\n'])) := .comment (by decide) .nil
  have hblank : IsBlank " %a\n".toList := by simpa using hcomment.space (by decide)
  have hj : (lex ("\\pi" ++ "\x7d")).Joint "\\pi".utf8ByteSize :=
    .before (l := ⟨.endGroup, 3⟩) (by decide +kernel)
  exact ⟨hblank, hj, (read_insert_blank hblank hj).2⟩

end FormulaEditor.Tex
