import FormulaEditor.CommandLine
import FormulaEditor.Proofs.Tex.Blanks
import FormulaEditor.Proofs.Tex.Meaningful
import Mathlib.Data.List.DropRight

/-!
# Text on standard input

The command line drops the blanks around a text before it reads it. That changes no token, but for a
text that ends in a backslash and a space: these two are a command of their own, and without the
space the backslash is left over.
-/

namespace FormulaEditor

open Unicode (isWhitespace)

namespace Text

variable {cs before : List Char} {c : Char}

/-- Trimming drops blanks only. -/
theorem exists_trim (cs : List Char) : ∃ front back, cs = front ++ (trim cs ++ back) ∧
    (∀ c ∈ front, isWhitespace c = true) ∧ ∀ c ∈ back, isWhitespace c = true := by
  refine ⟨cs.takeWhile isWhitespace, (cs.dropWhile isWhitespace).rtakeWhile isWhitespace, ?_,
    fun c hc => List.mem_takeWhile_imp hc, fun c hc => List.mem_rtakeWhile_imp hc⟩
  exact (List.takeWhile_append_dropWhile.symm).trans
    (congrArg _ List.rdropWhile_append_rtakeWhile.symm)

/-- What is left does not end in a blank. -/
theorem isWhitespace_of_trim (h : trim cs = before ++ [c]) : isWhitespace c = false := by
  have hne : (cs.dropWhile isWhitespace).rdropWhile isWhitespace ≠ [] := by
    intro hnil
    have : trim cs = [] := hnil
    simp [this] at h
  have hlast := List.rdropWhile_last_not isWhitespace (cs.dropWhile isWhitespace) hne
  have heq : (cs.dropWhile isWhitespace).rdropWhile isWhitespace = before ++ [c] := h
  simpa [heq] using hlast

end Text

namespace Tex

open String (utf8Len)

theorem IsBlank.of_forall {cs : List Char} (h : ∀ c ∈ cs, isWhitespace c = true) : IsBlank cs := by
  induction cs with
  | nil => exact .nil
  | cons c cs ih =>
    obtain ⟨hc, hcs⟩ := List.forall_mem_cons.mp h
    exact .space hc (ih hcs)

/-- The text ends in the command of a backslash and a space, but for blanks. -/
def EndsInSpacing (text : String) : Prop :=
  ∃ before blank, text = before ++ "\\ " ++ blank ∧
    (∀ c ∈ blank.toList, isWhitespace c = true) ∧
    ⟨.command " ", before.utf8ByteSize⟩ ∈ (lex text).items

/-- The text without the blanks at its ends. -/
def trimmed (text : String) : String :=
  String.ofList (Text.trim text.toList)

/-- A lone backslash means nothing. -/
theorem not_meaningful_backslash : ¬(Token.char '\\').Meaningful := by
  have halpha : isAtomChar '\\' = false := by decide +kernel
  have hglyph : isScriptGlyph '\\' = false := by decide
  have hbinary : BinaryOp.ofChar? '\\' = none := by decide
  simp [Token.Meaningful, halpha, hglyph, hbinary]

/-- No blank but the space is the name of a command. -/
theorem not_meaningful_blank {c : Char} (hc : isWhitespace c = true) (hne : c ≠ ' ') :
    ¬(Token.command (String.ofList [c])).Meaningful := by
  have hname : c = ' ' ∨ Command.ofName? (String.ofList [c]) = none :=
    Text.of_contains (p := fun c => c = ' ' ∨ Command.ofName? (String.ofList [c]) = none)
      (by decide +kernel) hc
  rintro (h | ⟨corner, h⟩)
  · rw [hname.resolve_left hne] at h
    cases h
  · have := congrArg (fun name => name.toList.length) h
    cases corner <;> simp [Corner.closer] at this

section Trimmed

variable {text : String} {ns : List Node}

/-- What is left of a text stands in it with blanks around. -/
theorem exists_trimmed (text : String) : ∃ front back lexemes,
    text.toList = front ++ ((trimmed text).toList ++ back) ∧ IsBlank front ∧
      (∀ c ∈ back, isWhitespace c = true) ∧
      Spaced (utf8Len front) (trimmed text).toList lexemes ∧
      lexemes.map Lexeme.token = (lex (trimmed text)).items.map Lexeme.token := by
  obtain ⟨front, back, htext, hfront, hback⟩ := Text.exists_trim text.toList
  refine ⟨front, back, _, by simpa [trimmed] using htext, .of_forall hfront, hback,
    (spaced_lexFrom _).1 _, ?_⟩
  rw [map_token_between, map_token_lex]

/-- Trimming a text changes no token if it leaves no lone backslash. -/
theorem map_token_trimmed
    (hne : ∀ l ∈ (lex (trimmed text)).items, l.token ≠ .char '\\') :
    (lex text).items.map Lexeme.token = (lex (trimmed text)).items.map Lexeme.token ∧
      ¬EndsInSpacing text := by
  obtain ⟨front, back, lexemes, htext, hfront, hback, hspaced, htokens⟩ := exists_trimmed text
  have hne : ∀ l ∈ lexemes, l.token ≠ .char '\\' := by
    have hne : ∀ t ∈ lexemes.map Lexeme.token, t ≠ .char '\\' := by
      simpa [htokens] using hne
    simpa using hne
  have hspaced' : Spaced 0 text.toList lexemes := by
    rw [htext]
    exact .blank hfront (by simpa using hspaced.append_blank (.of_forall hback) hne)
  have hitems : (lex text).items = lexemes := hspaced'.lexFrom
  refine ⟨by rw [hitems, htokens], fun ⟨before, blank, hsplit, hblank, hmem⟩ => ?_⟩
  rw [hitems] at hmem
  obtain ⟨inner, behind, hcore, hoffset, -⟩ := hspaced.exists_split _ hmem
  -- The space of the command would be at the end of what is left, or have blanks only behind it.
  have hcore : (trimmed text).toList = inner ++ '\\' :: ' ' :: behind := by
    rw [hcore, List.append_assoc]
    rfl
  have hchars : (front ++ inner) ++ ('\\' :: ' ' :: (behind ++ back)) =
      before.toList ++ ('\\' :: ' ' :: blank.toList) := by
    simpa [htext, hcore] using congrArg String.toList hsplit
  obtain ⟨-, htail⟩ := append_inj_of_utf8Len hchars (by
    rw [String.utf8Len_append, String.utf8Len_toList, hoffset])
  have hbehind : ∀ c ∈ ' ' :: behind, isWhitespace c = true := by
    have htail : behind ++ back = blank.toList := by simpa using htail
    refine List.forall_mem_cons.mpr ⟨by decide, fun c hc => hblank c ?_⟩
    exact htail ▸ List.mem_append_left back hc
  obtain hnil | ⟨init, c, hlast⟩ := List.eq_nil_or_concat (' ' :: behind)
  · cases hnil
  · have hc : isWhitespace c = true := hbehind c (by simp [hlast])
    have htrim : Text.trim text.toList = (inner ++ '\\' :: init) ++ [c] := by
      simpa [trimmed, hlast] using hcore
    rw [Text.isWhitespace_of_trim htrim] at hc
    cases hc

/-- If it does leave one, the text is read only if a space was the name of the backslash. -/
theorem endsInSpacing_of_read (hread : read text = .ok ns)
    (hmem : ∃ l ∈ (lex (trimmed text)).items, l.token = .char '\\') : EndsInSpacing text := by
  obtain ⟨front, back, lexemes, htext, hfront, hback, hspaced, htokens⟩ := exists_trimmed text
  have hmem : ∃ p, ⟨.char '\\', p⟩ ∈ lexemes := by
    have : .char '\\' ∈ lexemes.map Lexeme.token := by simpa [htokens] using hmem
    obtain ⟨⟨_, p⟩, hl, rfl⟩ := List.mem_map.mp this
    exact ⟨p, hl⟩
  obtain ⟨p, hp⟩ := hmem
  cases back with
  | nil =>
    have hspaced' : Spaced 0 text.toList lexemes := by
      rw [htext, List.append_nil]
      exact .blank hfront (by simpa using hspaced)
    have hitems : (lex text).items = lexemes := hspaced'.lexFrom
    exact absurd (meaningful_of_read hread _ (hitems ▸ hp)) not_meaningful_backslash
  | cons c back =>
    obtain ⟨hc, hblank⟩ := List.forall_mem_cons.mp hback
    obtain ⟨lexemes', hspaced', hmem⟩ :=
      hspaced.append_escape (isAlpha_of_isWhitespace hc) (.of_forall hblank) hp
    have hspaced' : Spaced 0 text.toList lexemes' := by
      rw [htext]
      exact .blank hfront (by simpa using hspaced')
    have hitems : (lex text).items = lexemes' := hspaced'.lexFrom
    rw [← hitems] at hmem
    obtain rfl : c = ' ' := by
      by_contra hne
      exact not_meaningful_blank hc hne (meaningful_of_read hread _ hmem)
    obtain ⟨inner, behind, hcore, hoffset, hwhole⟩ := hspaced.exists_split _ hp
    obtain rfl := hwhole.eq_nil rfl
    refine ⟨String.ofList (front ++ inner), String.ofList back, ?_, by simpa using hblank, ?_⟩
    · rw [← String.toList_inj, htext, hcore]
      simp [Token.chars]
    · rw [String.utf8ByteSize_ofList, String.utf8Len_append, hoffset]
      exact hmem

/-- A text that leaves a lone backslash when it is trimmed is refused then. -/
theorem read_trimmed_ne_ok (hmem : ∃ l ∈ (lex (trimmed text)).items, l.token = .char '\\') :
    read (trimmed text) ≠ .ok ns := by
  intro hread
  obtain ⟨l, hl, htoken⟩ := hmem
  exact not_meaningful_backslash (htoken ▸ meaningful_of_read hread l hl)

/-- The trimmed text is read as the text is, but for the command that trimming may spoil. -/
theorem read_trimmed_iff :
    read (trimmed text) = .ok ns ↔ read text = .ok ns ∧ ¬EndsInSpacing text := by
  by_cases hmem : ∃ l ∈ (lex (trimmed text)).items, l.token = .char '\\'
  · exact iff_of_false (read_trimmed_ne_ok hmem) fun ⟨hread, hends⟩ =>
      hends (endsInSpacing_of_read hread hmem)
  · have hne : ∀ l ∈ (lex (trimmed text)).items, l.token ≠ .char '\\' := by simpa using hmem
    obtain ⟨htokens, hends⟩ := map_token_trimmed hne
    rw [read_iff, read_iff, htokens]
    exact ⟨fun h => ⟨h, hends⟩, And.left⟩

end Trimmed

end Tex

namespace CommandLine

variable (file? : String → Option ByteArray) {text : String}

theorem fromUTF8?_toUTF8 (text : String) : String.fromUTF8? text.toUTF8 = some text :=
  dif_pos text.isValidUTF8

/-- What is printed of a text on standard input. -/
theorem run_latex_eq (text : String) : run file? text.toUTF8 ["latex"] =
    match Tex.read (Tex.trimmed text) with
    | .ok ns => ⟨0, Tex.write ns ++ "\n", ""⟩
    | .error error => failure error.message := by
  have hrun : run file? text.toUTF8 ["latex"] = Command.latex.runBytes text.toUTF8 := rfl
  rw [hrun, Command.runBytes, fromUTF8?_toUTF8]
  simp only [Command.run, Tex.trimmed]
  cases Tex.read (String.ofList (Text.trim text.toList)) <;> rfl

/-- The command line prints the canonical form of a text that can be read, unless the text ends in
the command of a backslash and a space, and fails on a text that cannot be read. On a text that ends
in that command it fails as well. -/
theorem run_latex_normalizes (text : String) :
    (∀ out, Tex.normalize text = .ok out →
      (¬Tex.EndsInSpacing text → run file? text.toUTF8 ["latex"] = ⟨0, out ++ "\n", ""⟩) ∧
      (Tex.EndsInSpacing text → ∃ err, run file? text.toUTF8 ["latex"] = ⟨1, "", err⟩)) ∧
    ∀ error, Tex.normalize text = .error error →
      ∃ err, run file? text.toUTF8 ["latex"] = ⟨1, "", err⟩ := by
  have hfails (h : ∀ ns, ¬(Tex.read text = .ok ns ∧ ¬Tex.EndsInSpacing text)) :
      ∃ err, run file? text.toUTF8 ["latex"] = ⟨1, "", err⟩ := by
    rw [run_latex_eq]
    cases hread : Tex.read (Tex.trimmed text) with
    | ok ns => exact absurd (Tex.read_trimmed_iff.mp hread) (h ns)
    | error error => exact ⟨_, rfl⟩
  refine ⟨fun out hout => ⟨fun hends => ?_, fun hends => hfails fun _ h => h.2 hends⟩,
    fun error herror => hfails fun ns ⟨hread, _⟩ => ?_⟩
  · obtain ⟨ns, hread, hwrite⟩ := bind_eq_ok.mp hout
    cases hwrite
    rw [run_latex_eq, Tex.read_trimmed_iff.mpr ⟨hread, hends⟩]
  · have hok : Tex.normalize text = .ok (Tex.write ns) := bind_eq_ok.mpr ⟨ns, hread, rfl⟩
    rw [hok] at herror
    cases herror

/-- A text is normalized, one that ends in a command for spacing fails, and so does a brace alone. -/
theorem run_latex_normalizes_power :
    run (fun _ => none) " x^2 ".toUTF8 ["latex"] = ⟨0, "x^\x7b2\x7d\n", ""⟩ ∧
      (∃ err, run (fun _ => none) "x\\ ".toUTF8 ["latex"] = ⟨1, "", err⟩) ∧
      ∃ err, run (fun _ => none) "\x7b".toUTF8 ["latex"] = ⟨1, "", err⟩ := by
  have hends : ¬Tex.EndsInSpacing " x^2 " := fun ⟨before, _, _, _, hmem⟩ => by
    have htokens : ∀ l ∈ (Tex.lex " x^2 ").items, l.token ≠ .command " " := by decide +kernel
    exact htokens _ hmem rfl
  have hspacing : Tex.EndsInSpacing "x\\ " := ⟨"x", "", rfl, by simp, by decide +kernel⟩
  have hpower : Tex.normalize " x^2 " = .ok "x^\x7b2\x7d" := by rfl
  have hx : Tex.normalize "x\\ " = .ok "x" := by rfl
  exact ⟨((run_latex_normalizes _ " x^2 ").1 _ hpower).1 hends,
    ((run_latex_normalizes _ "x\\ ").1 _ hx).2 hspacing, (run_latex_normalizes _ "\x7b").2 _ rfl⟩

/-- The space is lost when the text is trimmed. -/
theorem run_latex_loses_spacing : Tex.normalize "x\\ " = .ok "x" ∧
    run (fun _ => none) "x\\ ".toUTF8 ["latex"] =
      ⟨1, "", "Error: Parse error at offset 1: unexpected character '\\\\'\n"⟩ := by
  refine ⟨by rfl, ?_⟩
  rw [run_latex_eq]
  rfl

end CommandLine

end FormulaEditor
