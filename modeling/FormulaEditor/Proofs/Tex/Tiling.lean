import FormulaEditor.Proofs.Tex.Blanks
import FormulaEditor.Proofs.Tex.Errors

/-!
# Tokens and gaps make up the text

The tokens of a text lie in it one behind the other. Between any two of them, in front of the first
and behind the last, there are blanks and comments only, so nothing of the text is lost but these.
-/

namespace FormulaEditor.Tex

open String (utf8Len)

variable {o : Nat} {cs : List Char} {lexemes : List Lexeme}

/-- Where a token ends. -/
def Lexeme.stop (l : Lexeme) : Nat :=
  l.offset + l.token.text.utf8ByteSize

/-- What the tokens leave of a text, each piece with its beginning and its end: from `start` to the
first token, from the end of each token to the next one, and from the last token to the end. -/
def gapsFrom (start finish : Nat) : List Lexeme → List (Nat × Nat)
  | [] => [(start, finish)]
  | l :: rest => (start, l.offset) :: gapsFrom l.stop finish rest

/-- The gaps of a text. -/
def Lexemes.gaps (lexemes : Lexemes) : List (Nat × Nat) :=
  gapsFrom 0 lexemes.finish lexemes.items

/-- Between the two offsets there are blanks and comments only. Comments run to the end of their
line, which is part of the gap; the last one may run to the end of the text. -/
def BlankBetween (text : String) (start stop : Nat) : Prop :=
  ∃ before gap after, text = before ++ gap ++ after ∧ before.utf8ByteSize = start ∧
    start + gap.utf8ByteSize = stop ∧ (IsBlank gap.toList ∨ after = "" ∧ IsMargin gap.toList)

/-- The tokens lie in the text one behind the other, and are all there is but for blanks and
comments. -/
structure Lexemes.Tile (lexemes : Lexemes) (text : String) : Prop where
  finish : lexemes.finish = text.utf8ByteSize
  increasing : (lexemes.items.map Lexeme.offset ++ [lexemes.finish]).Pairwise (· < ·)
  stands : ∀ l ∈ lexemes.items, l.StandsIn text
  gaps : ∀ gap ∈ lexemes.gaps, BlankBetween text gap.1 gap.2
  /-- No letter follows a control word. -/
  maximal : ∀ l ∈ lexemes.items, ∀ name, l.token = .command name →
    (∀ c ∈ name.toList, c.isAlpha = true) → ∀ c, c.isAlpha = true →
    ¬ContinuesAt text l.stop (String.singleton c)

theorem Lexeme.stop_eq (l : Lexeme) : l.stop = l.offset + utf8Len l.token.chars := by
  rw [stop, Token.text, String.utf8ByteSize_ofList]

namespace Spaced

theorem increasing (h : Spaced o cs lexemes) :
    (lexemes.map Lexeme.offset ++ [o + utf8Len cs]).Pairwise (· < ·) := by
  induction h with
  | margin => exact List.pairwise_singleton ..
  | @lexeme o gap rest t lexemes _ _ h ih =>
    have hpos := t.utf8Len_chars_pos
    rw [add_utf8Len, List.map_cons, List.cons_append, List.pairwise_cons]
    refine ⟨fun p hp => ?_, ih⟩
    show o + utf8Len gap < p
    rcases List.mem_append.mp hp with hp | hp
    · obtain ⟨l, hl, rfl⟩ := List.mem_map.mp hp
      have := h.le_offset l hl
      omega
    · rw [List.mem_singleton.mp hp]
      omega

theorem gaps (h : Spaced o cs lexemes) : ∀ p ∈ gapsFrom o (o + utf8Len cs) lexemes,
    ∃ front gap behind, cs = front ++ gap ++ behind ∧ o + utf8Len front = p.1 ∧
      p.1 + utf8Len gap = p.2 ∧ (IsBlank gap ∨ behind = [] ∧ IsMargin gap) := by
  induction h with
  | @margin o cs h =>
    intro p hp
    obtain rfl := List.mem_singleton.mp hp
    exact ⟨[], cs, [], by simp, rfl, rfl, .inr ⟨rfl, h⟩⟩
  | @lexeme o gap rest t lexemes hgap _ _ ih =>
    have hstop : Lexeme.stop ⟨t, o + utf8Len gap⟩ = o + utf8Len gap + utf8Len t.chars :=
      Lexeme.stop_eq _
    rw [add_utf8Len, gapsFrom, hstop, List.forall_mem_cons]
    refine ⟨⟨[], gap, t.chars ++ rest, rfl, rfl, rfl, .inl hgap⟩, fun p hp => ?_⟩
    obtain ⟨front, inner, behind, rfl, hfront, hinner, hblank⟩ := ih p hp
    refine ⟨gap ++ t.chars ++ front, inner, behind, by simp, ?_, hinner, hblank⟩
    rw [← hfront]
    simp only [String.utf8Len_append]
    omega

end Spaced

/-- No letter goes on a control word. -/
theorem Token.Whole.closed {rest : List Char} {name : String} (h : (Token.command name).Whole rest)
    (hname : ∀ c ∈ name.toList, c.isAlpha = true) : Closed rest := by
  generalize ht : Token.command name = t at h
  cases h with
  | @simple c _ h =>
    have := chars_simpleToken c
    rw [← ht] at this
    exact absurd (List.head_eq_of_cons_eq this).symm h.ne_backslash
  | @symbol c _ h =>
    cases ht
    have := hname c (by simp)
    simp [h] at this
  | word _ _ hc => exact hc
  | backslash => cases ht

/-- The lexemes of a text and the gaps between them make up the text. -/
theorem lex_tiles (text : String) : (lex text).Tile text := by
  have h := spaced_lex text
  refine ⟨rfl, ?_, standsIn_lex, fun p hp => ?_, fun l hl name hname halpha c hc hcont => ?_⟩
  · simpa [lex, String.utf8Len_toList] using h.increasing
  · have hp' : p ∈ gapsFrom 0 (0 + utf8Len text.toList) (lex text).items := by
      rwa [Nat.zero_add, String.utf8Len_toList]
    obtain ⟨front, gap, behind, htext, hfront, hgap, hblank⟩ := h.gaps p hp'
    refine ⟨String.ofList front, String.ofList gap, String.ofList behind, ?_, ?_, ?_, ?_⟩
    · rw [← String.toList_inj]
      simpa using htext
    · rw [String.utf8ByteSize_ofList, ← hfront, Nat.zero_add]
    · rw [String.utf8ByteSize_ofList, hgap]
    · simpa using hblank
  · obtain ⟨before, after, htext, ho, hwhole⟩ := standsIn_lex l hl
    obtain ⟨before', after', htext', ho'⟩ := hcont
    have hchars : (before ++ l.token.text).toList ++ after.toList =
        before'.toList ++ c :: after'.toList := by
      simpa using congrArg String.toList (htext.symm.trans htext')
    obtain ⟨-, hafter⟩ := append_inj_of_utf8Len hchars (by
      rw [String.utf8Len_toList, String.utf8Len_toList, ho', String.utf8ByteSize_append, ho]
      rfl)
    rw [hname, hafter] at hwhole
    have := hwhole.closed halpha
    simp [Closed, hc] at this

example : (lex "x% a\n\\pi").gaps = [(0, 0), (1, 5), (8, 8)] := by decide +kernel

/-! ## There is one way to tile a text -/

variable {text : String}

/-- A piece of the text right behind `front` begins what follows `front`. -/
theorem eq_append_of_split {front : List Char} {before piece after : String}
    (htext : text.toList = front ++ cs) (hsplit : text = before ++ piece ++ after)
    (hbefore : before.utf8ByteSize = utf8Len front) : cs = piece.toList ++ after.toList := by
  have hchars : front ++ cs = before.toList ++ (piece.toList ++ after.toList) := by
    rw [← htext, hsplit, String.toList_append, String.toList_append, List.append_assoc]
  exact (append_inj_of_utf8Len hchars (by rw [String.utf8Len_toList, hbefore])).2

/-- Lexemes that stand in a text with blanks between them are spaced in it. -/
theorem spaced_of_gaps {front : List Char} (htext : text.toList = front ++ cs)
    (hstands : ∀ l ∈ lexemes, l.StandsIn text)
    (hgaps : ∀ p ∈ gapsFrom (utf8Len front) text.utf8ByteSize lexemes,
      BlankBetween text p.1 p.2) : Spaced (utf8Len front) cs lexemes := by
  induction lexemes generalizing front cs with
  | nil =>
    obtain ⟨before, gap, after, hsplit, hbefore, hgap, hblank⟩ :=
      hgaps _ (List.mem_singleton_self _)
    obtain rfl : after = "" := by
      rw [← String.utf8ByteSize_eq_zero_iff]
      have hsize := congrArg String.utf8ByteSize hsplit
      simp only [String.utf8ByteSize_append] at hsize
      omega
    obtain rfl : cs = gap.toList := by
      simpa using eq_append_of_split htext hsplit hbefore
    exact .margin (hblank.elim .blank And.right)
  | cons l lexemes ih =>
    obtain ⟨⟨before', after', hsplit', hbefore', hwhole⟩, hstands⟩ :=
      List.forall_mem_cons.mp hstands
    obtain ⟨⟨before, gap, after, hsplit, hbefore, hoffset, hblank⟩, hgaps⟩ :=
      List.forall_mem_cons.mp hgaps
    have hoffset : utf8Len front + utf8Len gap.toList = l.offset := by
      rwa [String.utf8Len_toList]
    have hcs := eq_append_of_split htext hsplit hbefore
    have hrest : text.toList = front ++ gap.toList ++ after.toList := by
      rw [htext, hcs, List.append_assoc]
    have hafter : after.toList = l.token.chars ++ after'.toList := by
      simpa [Token.text] using
        eq_append_of_split hrest hsplit' (by rw [hbefore', ← hoffset, String.utf8Len_append])
    have hgap : IsBlank gap.toList := by
      refine hblank.resolve_right fun hend => ?_
      -- A token stands behind the gap, so the text does not end there.
      have hpos := l.token.utf8Len_chars_pos
      have hlen := congrArg utf8Len hafter
      rw [hend.1, String.utf8Len_append] at hlen
      simp only [String.toList_empty, String.utf8Len_nil] at hlen
      omega
    have hnext : Spaced (utf8Len (front ++ gap.toList ++ l.token.chars)) after'.toList lexemes := by
      refine ih (by rw [hrest, hafter, List.append_assoc _ l.token.chars]) hstands ?_
      rwa [String.utf8Len_append, String.utf8Len_append, hoffset, ← l.stop_eq]
    have hl : l = ⟨l.token, utf8Len front + utf8Len gap.toList⟩ := by rw [hoffset]
    rw [String.utf8Len_append, String.utf8Len_append] at hnext
    rw [hcs, hafter, hl]
    exact .lexeme hgap hwhole hnext

/-- Only the lexemes of a text tile it. -/
theorem Lexemes.Tile.eq_lex {lexemes : Lexemes} (h : lexemes.Tile text) : lexemes = lex text := by
  have hspaced : Spaced (utf8Len []) text.toList lexemes.items :=
    spaced_of_gaps rfl h.stands (h.finish ▸ h.gaps)
  rw [Lexemes.mk.injEq, h.finish]
  exact ⟨hspaced.lexFrom.symm, rfl⟩

end FormulaEditor.Tex
