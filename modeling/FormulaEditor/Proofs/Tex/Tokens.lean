import FormulaEditor.Proofs.Tex.Legible
import FormulaEditor.Proofs.Tex.Lexing
import FormulaEditor.Proofs.Text.Italic
import FormulaEditor.Tex.Writer

/-!
# The tokens of written notation

Notation is written piece by piece. Lexing gives the tokens of the pieces, one after the other: no
control word takes in letters that follow it, since braces or a space come in between.
-/

namespace FormulaEditor.Tex

/-! ## Tokens of nodes -/

/-- Tokens in braces. -/
def grouped (ts : List Token) : List Token :=
  .beginGroup :: (ts ++ [.endGroup])

/-- The token of a paren; braces are control sequences. -/
def parenToken (c : Char) : Token :=
  if c == '\x7b' || c == '\x7d' then .command (String.ofList [c]) else .char c

/-- The token of a binary operator. -/
def binaryToken : BinaryOp → Token
  | .plus => .char '+'
  | .minus => .char '-'
  | .times => .command "times"
  | .equals => .char '='

/-- The name of the control word of an operator with limits. -/
def bigName : BigOp → String
  | .sum => "sum"
  | .product => "prod"

mutual

/-- The tokens of a node. -/
def tokens : Node → List Token
  | .atom text => text.toList.map fun c => .char (Text.plain c)
  | .binary op => [binaryToken op]
  | .function name => .command "operatorname" :: grouped (name.toList.map .char)
  | .paren c => [parenToken c]
  | .frac numerator denominator =>
    .command "frac" :: (grouped (tokensAll numerator) ++ grouped (tokensAll denominator))
  | .radical none radicand => .command "sqrt" :: grouped (tokensAll radicand)
  | .radical (some index) radicand =>
    .command "sqrt" :: .char '[' :: (tokensAll index ++ .char ']' :: grouped (tokensAll radicand))
  | .scripts none none => []
  | .scripts none (some subscript) => .subscript :: grouped (tokensAll subscript)
  | .scripts (some exponent) none => .superscript :: grouped (tokensAll exponent)
  | .scripts (some exponent) (some subscript) =>
    .subscript :: (grouped (tokensAll subscript) ++ .superscript :: grouped (tokensAll exponent))
  | .wrapped wrap argument => .command wrap.name :: grouped (tokensAll argument)
  | .big op top bottom =>
    .command (bigName op) :: .subscript ::
      (grouped (tokensAll bottom) ++ .superscript :: grouped (tokensAll top))

/-- The tokens of a list, node by node. -/
def tokensAll : List Node → List Token
  | [] => []
  | n :: ns => tokens n ++ tokensAll ns

end

theorem grouped_append (ts rest : List Token) :
    grouped ts ++ rest = .beginGroup :: (ts ++ .endGroup :: rest) := by
  simp [grouped]

/-! ## Characters of nodes -/

/-- A character of a node is no blank, and nothing that lexing knows as more than a character. -/
structure Plainly (c : Char) : Prop extends Ordinary c where
  simpleToken : LexState.simpleToken c = .char c

theorem plainly_of_isAtomChar {c : Char} (h : isAtomChar c) : Plainly c := by
  have hnot : ∀ d ∈ ['%', '\\', '\x7b', '\x7d', '^', '_'], isAtomChar d = false := by decide
  have hne : ∀ d ∈ ['%', '\\', '\x7b', '\x7d', '^', '_'], c ≠ d := by
    rintro d hd rfl
    simp [hnot c hd] at h
  simp only [List.forall_mem_cons, List.not_mem_nil, false_imp_iff, implies_true, and_true] at hne
  obtain ⟨hpercent, hbackslash, hopen, hclose, hup, hdown⟩ := hne
  refine ⟨⟨?_, hpercent, hbackslash⟩, ?_⟩
  · cases hw : Unicode.isWhitespace c with
    | false => rfl
    | true =>
      have := Text.of_contains (p := fun c => isAtomChar c = false) (by decide +kernel) hw
      simp [this] at h
  · unfold LexState.simpleToken
    split <;> simp_all

theorem isAtomChar_plain {c : Char} (h : isAtomChar c) : isAtomChar (Text.plain c) := by
  have hplain : Text.plain c = c ∨ isAtomChar (Text.plain c) := by
    by_cases hh : c = 'ℎ'
    · subst hh
      decide
    by_cases ha : ∃ start ∈ [Text.italicSmall, Text.italicCapital, Text.italicGreek],
        Text.InAlphabet c start
    · obtain ⟨start, hs, hc⟩ := ha
      exact Text.of_inAlphabet (p := fun c => Text.plain c = c ∨ isAtomChar (Text.plain c))
        (by decide +kernel) hs hc
    · exact .inl (Text.plain_of_not_inAlphabet hh fun start hs hc => ha ⟨start, hs, hc⟩)
  obtain hp | hp := hplain
  · rwa [hp]
  · exact hp

theorem isAtomChar_of_isAlphanumeric {c : Char} (h : Unicode.isAlphanumeric c) : isAtomChar c := by
  simp [isAtomChar, h]

theorem lexed_char {c : Char} {cs : List Char} (h : Plainly c) :
    lexed (c :: cs) = .char c :: lexed cs := by
  rw [lexed_cons h.toOrdinary, h.simpleToken]

theorem lexed_chars {word cs : List Char} (h : ∀ c ∈ word, Plainly c) :
    lexed (word ++ cs) = word.map .char ++ lexed cs := by
  induction word with
  | nil => rfl
  | cons c word ih =>
    rw [List.cons_append, lexed_char (h c (by simp)), ih fun c hc => h c (by simp [hc])]
    rfl

/-! ## Written notation -/

section Writing

variable {ns : List Node} {cs rest : List Char}

/-- However a list is written after something else, it is lexed as its tokens. -/
def LexesAs (ns : List Node) : Prop :=
  ∀ written rest, Closed rest → ∃ tail, writeAfter written ns = written ++ tail ∧
    lexed (tail ++ rest) = tokensAll ns ++ lexed rest ∧
    (timesWord.isSuffixOf written → Closed (tail ++ rest))

theorem lexed_braced {ts : List Token}
    (h : ∀ rest, Closed rest → lexed (cs ++ rest) = ts ++ lexed rest) (rest : List Char) :
    lexed (braced cs ++ rest) = grouped ts ++ lexed rest := by
  have hopen : Ordinary '\x7b' := ⟨by decide, by decide, by decide⟩
  have hclose : Ordinary '\x7d' := ⟨by decide, by decide, by decide⟩
  have hinner := h ('\x7d' :: rest) rfl
  simp only [braced, List.cons_append, List.append_assoc, List.nil_append]
  rw [lexed_cons hopen, hinner, lexed_cons hclose, grouped_append]
  rfl

/-- A list is written the same at the beginning of a group. -/
theorem LexesAs.lexed (h : LexesAs ns) (hc : Closed rest) :
    lexed (writeAfter [] ns ++ rest) = tokensAll ns ++ lexed rest := by
  obtain ⟨tail, hw, hl, -⟩ := h [] rest hc
  rw [hw, List.nil_append, hl]

theorem LexesAs.braced (h : LexesAs ns) (rest : List Char) :
    Tex.lexed (braced (writeAfter [] ns) ++ rest) = grouped (tokensAll ns) ++ Tex.lexed rest :=
  lexed_braced (fun _ hc => h.lexed hc) rest

theorem closed_cons {c : Char} (h : c.isAlpha = false) : Closed (c :: cs) := by
  simpa [Closed] using h

theorem closed_braced : Closed (braced cs ++ rest) :=
  closed_cons (by decide)

theorem lexed_command (written : List Char) (name : String) (hs : written = '\\' :: name.toList)
    (hn : name ≠ "") (hw : ∀ c ∈ name.toList, c.isAlpha) (hc : Closed cs) :
    lexed (written ++ cs) = .command name :: lexed cs := by
  have hn : name.toList ≠ [] := by simpa using hn
  rw [hs, List.cons_append, lexed_word hn hw hc, String.ofList_toList]

theorem lexed_writeBinary {op : BinaryOp} (hc : op = .times → Closed rest) :
    lexed (writeBinary op ++ rest) = binaryToken op :: lexed rest := by
  cases op with
  | times =>
    rw [writeBinary, lexed_command timesWord "times" rfl (by decide) (by decide) (hc rfl)]
    rfl
  | plus => exact lexed_cons (c := '+') ⟨by decide, by decide, by decide⟩
  | minus => exact lexed_cons (c := '-') ⟨by decide, by decide, by decide⟩
  | equals => exact lexed_cons (c := '=') ⟨by decide, by decide, by decide⟩

theorem lexed_writeParen {c : Char} (h : isParen c) :
    lexed (writeParen c ++ rest) = parenToken c :: lexed rest := by
  obtain rfl | rfl | rfl | rfl | rfl | rfl := isParen_iff.mp h
  · exact lexed_cons ⟨by decide, by decide, by decide⟩
  · exact lexed_cons ⟨by decide, by decide, by decide⟩
  · exact lexed_escape (by decide)
  · exact lexed_cons ⟨by decide, by decide, by decide⟩
  · exact lexed_cons ⟨by decide, by decide, by decide⟩
  · exact lexed_escape (by decide)

theorem lexed_up : lexed ('^' :: cs) = .superscript :: lexed cs :=
  lexed_cons ⟨by decide, by decide, by decide⟩

theorem lexed_down : lexed ('_' :: cs) = .subscript :: lexed cs :=
  lexed_cons ⟨by decide, by decide, by decide⟩

section Equations

variable (text name : String) (a b : List Node)

theorem writeNode_atom : writeNode (.atom text) = (Text.unitalicize text).toList := rfl

theorem writeNode_function :
    writeNode (.function name) = "\\operatorname".toList ++ braced name.toList := rfl

theorem writeNode_frac : writeNode (.frac a b) =
    "\\frac".toList ++ braced (writeAfter [] a) ++ braced (writeAfter [] b) := rfl

theorem writeNode_squareRoot :
    writeNode (.radical none b) = "\\sqrt".toList ++ braced (writeAfter [] b) := rfl

theorem writeNode_root : writeNode (.radical (some a) b) =
    "\\sqrt".toList ++ '[' :: (writeAfter [] a ++ ']' :: braced (writeAfter [] b)) := rfl

theorem writeNode_exponent :
    writeNode (.scripts (some a) none) = '^' :: braced (writeAfter [] a) := rfl

theorem writeNode_subscript :
    writeNode (.scripts none (some b)) = '_' :: braced (writeAfter [] b) := rfl

theorem writeNode_scripts : writeNode (.scripts (some a) (some b)) =
    '_' :: braced (writeAfter [] b) ++ '^' :: braced (writeAfter [] a) := rfl

theorem writeNode_wrapped (wrap : Wrap) :
    writeNode (.wrapped wrap a) = '\\' :: wrap.name.toList ++ braced (writeAfter [] a) := rfl

theorem writeNode_big (op : BigOp) : writeNode (.big op a b) =
    (bigWord op).toList ++ '_' :: braced (writeAfter [] b) ++ '^' :: braced (writeAfter [] a) := rfl

end Equations

/-- A node is lexed as its tokens once its lists are. -/
theorem lexed_writeNode {n : Node} (hn : n.Legible) (ih : ∀ l ∈ n.lists, LexesAs l)
    (hc : n = .binary .times → Closed rest) :
    lexed (writeNode n ++ rest) = tokens n ++ lexed rest := by
  cases n with
  | atom text =>
    obtain ⟨c, rfl, h⟩ := hn.exists_char
    simp only [writeNode_atom, tokens, Text.unitalicize, String.toList_singleton, List.map_cons,
      List.map_nil, String.toList_ofList, List.cons_append, List.nil_append]
    rw [lexed_char (plainly_of_isAtomChar (isAtomChar_plain h))]
  | binary op => exact lexed_writeBinary fun h => hc (congrArg Node.binary h)
  | function name =>
    have hname : ∀ c ∈ name.toList, Plainly c := fun c hc =>
      plainly_of_isAtomChar (isAtomChar_of_isAlphanumeric (hn.2 c hc))
    simp only [writeNode_function, tokens, List.append_assoc, List.cons_append]
    rw [lexed_command "\\operatorname".toList "operatorname" rfl (by decide) (by decide)
      closed_braced, lexed_braced fun _ _ => lexed_chars hname]
  | paren c => exact lexed_writeParen hn
  | frac numerator denominator =>
    simp only [Node.lists, List.forall_mem_cons] at ih
    simp only [writeNode_frac, tokens, List.append_assoc, List.cons_append]
    rw [lexed_command "\\frac".toList "frac" rfl (by decide) (by decide) closed_braced,
      ih.1.braced, ih.2.1.braced]
  | radical index radicand =>
    cases index with
    | none =>
      simp only [Node.lists, Option.toList, List.nil_append, List.forall_mem_cons] at ih
      simp only [writeNode_squareRoot, tokens, List.append_assoc, List.cons_append]
      rw [lexed_command "\\sqrt".toList "sqrt" rfl (by decide) (by decide) closed_braced,
        ih.1.braced]
    | some index =>
      have hbracket : '['.isAlpha = false := by decide
      simp only [Node.lists, Option.toList, List.cons_append, List.nil_append,
        List.forall_mem_cons] at ih
      simp only [writeNode_root, tokens, List.append_assoc, List.cons_append]
      rw [lexed_command "\\sqrt".toList "sqrt" rfl (by decide) (by decide) (closed_cons hbracket),
        lexed_cons ⟨by decide, by decide, by decide⟩, ih.1.lexed (closed_cons (by decide)),
        lexed_cons ⟨by decide, by decide, by decide⟩, ih.2.1.braced]
      rfl
  | scripts exponent subscript =>
    rcases exponent with _ | exponent <;> rcases subscript with _ | subscript <;>
      simp only [Node.lists, Option.toList, List.cons_append, List.nil_append,
        List.forall_mem_cons] at ih
    · exact absurd hn (by simp [Node.Legible])
    · simp only [writeNode_subscript, tokens, List.cons_append]
      rw [lexed_down, ih.1.braced]
    · simp only [writeNode_exponent, tokens, List.cons_append]
      rw [lexed_up, ih.1.braced]
    · simp only [writeNode_scripts, tokens, List.append_assoc, List.cons_append]
      rw [lexed_down, ih.2.1.braced, lexed_up, ih.1.braced]
  | wrapped wrap argument =>
    have hname : wrap.name ≠ "" ∧ ∀ c ∈ wrap.name.toList, c.isAlpha := by
      cases wrap <;> decide
    simp only [Node.lists, List.forall_mem_cons] at ih
    rw [writeNode_wrapped, tokens, List.append_assoc,
      lexed_command _ wrap.name rfl hname.1 hname.2 closed_braced, ih.1.braced, List.cons_append]
  | big op top bottom =>
    have hdown : '_'.isAlpha = false := by decide
    have hname : (bigWord op).toList = '\\' :: (bigName op).toList ∧ bigName op ≠ "" ∧
        ∀ c ∈ (bigName op).toList, c.isAlpha := by
      cases op <;> decide
    simp only [Node.lists, List.forall_mem_cons] at ih
    simp only [writeNode_big, tokens, List.append_assoc, List.cons_append]
    rw [lexed_command _ (bigName op) hname.1 hname.2.1 hname.2.2 (closed_cons hdown),
      lexed_down, ih.2.1.braced, lexed_up, ih.1.braced]

theorem isSuffixOf_timesWord (written : List Char) :
    timesWord.isSuffixOf (appendPiece written timesWord) = true := by
  rw [List.isSuffixOf_iff_suffix]
  unfold appendPiece
  split
  · exact ⟨written ++ [' '], by simp⟩
  · exact ⟨written, rfl⟩

/-- Lists of legible notation are lexed as their tokens, whatever they are written after. -/
theorem lexesAs (hns : Node.EveryNode Node.Legible ns) : LexesAs ns := by
  refine (Node.induction (P := fun n => (∀ l ∈ n.lists, Node.EveryNode Node.Legible l) →
    ∀ l ∈ n.lists, LexesAs l) (Q := fun ns => Node.EveryNode Node.Legible ns → LexesAs ns)
    ?node ?nil ?cons).2 ns hns
  case node => exact fun n ih hn l hl => ih l hl (hn l hl)
  case nil => exact fun _ written rest hc => ⟨[], by simp [writeAfter], rfl, fun _ => hc⟩
  case cons =>
    intro n ns hn ihs hns written rest hc
    obtain ⟨⟨hlegible, hlists⟩, hns⟩ := Node.everyNode_cons.mp hns
    obtain ⟨gap, hgap, hsep⟩ : ∃ gap, (gap = [] ∨ gap = [' ']) ∧
        appendPiece written (writeNode n) = written ++ gap ++ writeNode n ∧
        (timesWord.isSuffixOf written → gap = [' '] ∨
          (writeNode n).head?.any Char.isAlpha = false) := by
      unfold appendPiece
      split
      · exact ⟨[' '], .inr rfl, by simp, fun _ => .inl rfl⟩
      · rename_i h
        refine ⟨[], .inl rfl, by simp, fun hs => .inr ?_⟩
        simpa [hs] using h
    obtain ⟨happend, hsep⟩ := hsep
    obtain ⟨tail, hw, hl, hclosed⟩ := ihs hns (appendPiece written (writeNode n)) rest hc
    have htimes : n = .binary .times → Closed (tail ++ rest) := by
      rintro rfl
      exact hclosed (isSuffixOf_timesWord written)
    have hnode := lexed_writeNode hlegible (hn hlists) htimes
    refine ⟨gap ++ writeNode n ++ tail, ?_, ?_, fun hs => ?_⟩
    · rw [writeAfter, hw, happend]
      simp
    · have hskip : lexed (gap ++ (writeNode n ++ (tail ++ rest))) =
          lexed (writeNode n ++ (tail ++ rest)) := by
        obtain rfl | rfl := hgap
        · rfl
        · exact lexed_space
      rw [tokensAll, List.append_assoc, List.append_assoc, List.append_assoc, hskip, hnode, hl]
    · obtain rfl | hhead := hsep hs
      · exact closed_cons (by decide)
      · cases hpiece : writeNode n with
        | nil =>
          obtain rfl | rfl := hgap
          · rw [happend, hpiece, List.append_nil, List.append_nil] at hclosed
            simpa using hclosed hs
          · exact closed_cons (by decide)
        | cons c cs =>
          rw [hpiece] at hhead
          obtain rfl | rfl := hgap
          · exact closed_cons (by simpa using hhead)
          · exact closed_cons (by decide)

/-- The lexemes of written notation are its tokens. -/
theorem map_token_lex_write (hns : Node.EveryNode Node.Legible ns) :
    (lex (write ns)).items.map Lexeme.token = tokensAll ns := by
  have h := (lexesAs hns).lexed (show Closed [] from rfl)
  rw [List.append_nil, lexed_nil, List.append_nil] at h
  rw [map_token_lex, write, String.toList_ofList, h]

end Writing

end FormulaEditor.Tex
