import FormulaEditor.Proofs.Tex.RoundTrip

/-!
# Texts of single symbols

A character that is read by itself as a node without lists is read as that node wherever it stands.
A text of such characters is read character by character.
-/

namespace FormulaEditor.Tex

variable {c : Char} {n : Node} {cs : List Char} {ns : List Node}

/-- Read by itself, the character is a single node without lists. -/
def ReadsLeaf (c : Char) : Prop :=
  ∃ n, read (String.singleton c) = .ok [n] ∧ n.lists = []

/-- The characters that stand for a paren, an operator or a symbol, and what they stand for. -/
inductive Stands : Char → Node → Prop
  | paren {c : Char} (hc : c ∈ ['(', ')', '[', ']']) : Stands c (.paren c)
  | binary {c : Char} {op : BinaryOp} (hc : BinaryOp.ofChar? c = some op) : Stands c (.binary op)
  | atom {c : Char} (hc : isAtomChar c) (hg : isScriptGlyph c = false) : Stands c (.ofChar c)

namespace Stands

theorem plainly (h : Stands c n) : Plainly c := by
  cases h with
  | paren hc =>
    simp only [List.mem_cons, List.not_mem_nil, or_false] at hc
    obtain rfl | rfl | rfl | rfl := hc <;> exact ⟨⟨by decide, by decide, by decide⟩, rfl⟩
  | binary hc =>
    unfold BinaryOp.ofChar? at hc
    split at hc <;> first | exact ⟨⟨by decide, by decide, by decide⟩, rfl⟩ | cases hc
  | atom hc => exact plainly_of_isAtomChar hc

/-- Wherever the character stands, it is the next notation of the list. -/
theorem itemBy {R : ListReading} {finish o : Nat} {rest : List Lexeme} (h : Stands c n) :
    ItemBy R finish (⟨.char c, o⟩ :: rest) [n] rest := by
  cases h with
  | paren hc => exact .paren (by simpa using hc)
  | binary hc => exact .binary hc
  | atom hc hg => exact .atom hc hg (ofChar?_of_isAtomChar hc)

theorem lexed_eq (h : List.Forall₂ Stands cs ns) : lexed cs = cs.map .char := by
  induction h with
  | nil => rfl
  | cons hc _ ih => rw [lexed_char hc.plainly, ih, List.map_cons]

theorem reads (h : List.Forall₂ Stands cs ns) (openBrackets : Nat) :
    Reads .input openBrackets (cs.map .char) ns [] := by
  induction h generalizing openBrackets with
  | nil => exact reads_iff.mpr (.inl ⟨rfl, rfl⟩)
  | cons hc _ ih => exact reads_iff.mpr (.inr ⟨rfl, _, _, _, hc.itemBy, ih _, rfl⟩)

end Stands

/-- Characters that stand for nodes are read as these, one after the other. -/
theorem read_of_stands (h : List.Forall₂ Stands cs ns) : read (String.ofList cs) = .ok ns := by
  rw [read_iff, map_token_lex, String.toList_ofList, Stands.lexed_eq h]
  exact Stands.reads h 0

/-- A character stands for one node only. -/
theorem Stands.unique {m : Node} (h : Stands c n) (hm : Stands c m) : n = m := by
  have hread := (read_of_stands (.cons h .nil)).symm.trans (read_of_stands (.cons hm .nil))
  cases hread
  rfl

/-- A list of a single character that is read as one leaf is read as what the character stands
for. -/
theorem ItemBy.stands {R : ListReading} {finish o : Nat} {rest more : List Lexeme}
    {first after : List Node} (h : ItemBy R finish (⟨.char c, o⟩ :: rest) first more)
    (hfirst : [n] = first ++ after) (hlists : n.lists = []) : Stands c n := by
  cases h with
  | scripts hl => simp at hl
  | glyphs hc h =>
    obtain ⟨rfl, -⟩ := List.cons_eq_cons.mp hfirst
    obtain ⟨exponent, subscript, hfst⟩ := @readScriptGlyphs_fst (⟨.char c, o⟩ :: rest)
    obtain rfl : n = .scripts exponent subscript := by rw [← hfst, h]
    have hlegible := (legible_readScriptGlyphs hc h).here _ (List.mem_singleton_self _)
    cases exponent <;> cases subscript <;> simp_all [Node.lists, Node.Legible]
  | bar =>
    obtain ⟨rfl, -⟩ := List.cons_eq_cons.mp hfirst
    cases hlists
  | paren hc =>
    obtain ⟨rfl, -⟩ := List.cons_eq_cons.mp hfirst
    exact .paren (by simpa using hc)
  | binary hc =>
    obtain ⟨rfl, -⟩ := List.cons_eq_cons.mp hfirst
    exact .binary hc
  | atom hc hg =>
    obtain ⟨rfl, -⟩ := List.cons_eq_cons.mp hfirst
    exact .atom hc hg

/-- What is not a plain character is a blank, or one of those that lexing knows as more. -/
theorem not_plainly (h : ¬Plainly c) :
    Unicode.isWhitespace c = true ∨ c ∈ ['%', '\\', '\x7b', '\x7d', '^', '_'] := by
  by_contra hnot
  simp only [List.mem_cons, List.not_mem_nil, or_false, not_or, Bool.not_eq_true] at hnot
  obtain ⟨hw, hpercent, hbackslash, hopen, hclose, hup, hdown⟩ := hnot
  refine h ⟨⟨hw, hpercent, hbackslash⟩, ?_⟩
  unfold LexState.simpleToken
  split <;> simp_all

/-- A character that is read as a leaf by itself is one of these. -/
theorem ReadsLeaf.stands (h : ReadsLeaf c) : ∃ n, Stands c n := by
  obtain ⟨n, hread, hlists⟩ := h
  have hreads := read_iff.mp hread
  rw [map_token_lex, String.toList_singleton] at hreads
  by_cases hplain : Plainly c
  · rw [lexed_char hplain] at hreads
    obtain ⟨-, hnil⟩ | ⟨-, first, middle, more, hi, -, hns⟩ := reads_iff.mp hreads
    · cases hnil
    · exact ⟨n, ItemBy.stands hi hns hlists⟩
  · exfalso
    obtain hw | hc := not_plainly hplain
    · rw [lexed_whitespace hw, lexed_nil] at hreads
      obtain ⟨-, hnil⟩ | ⟨hnone, -⟩ := reads_iff.mp hreads
      · cases hnil
      · cases hnone
    · simp only [List.mem_cons, List.not_mem_nil, or_false] at hc
      obtain rfl | rfl | rfl | rfl | rfl | rfl := hc <;> cases hread

end FormulaEditor.Tex
