import FormulaEditor.Proofs.Node.Depth
import FormulaEditor.Proofs.Tex.Notation

/-!
# What reading yields

Formula text is read as notation of a certain form: symbols of one character, names of letters and
digits, parens of the six sorts, scripts with a half. This holds at every depth, whatever the text.
-/

namespace FormulaEditor

/-- The node is one that formula text can be read as, its lists aside. -/
def Node.Legible : Node → Prop
  | .atom text => ∃ c, text = String.singleton c ∧ Tex.isAtomChar c
  | .function name => name ≠ "" ∧ ∀ c ∈ name.toList, Unicode.isAlphanumeric c
  | .paren c => isParen c
  | .scripts none none => False
  | _ => True

theorem Node.Legible.exists_char {text : String} (h : (Node.atom text).Legible) :
    ∃ c, text = String.singleton c ∧ Tex.isAtomChar c := h

namespace Tex

variable {finish : Nat} {R : ListReading} {lexemes rest : List Lexeme} {ns : List Node} {n : Node}

theorem mem_of_lookup {α β : Type} [BEq α] [LawfulBEq α] {a : α} {b : β} {l : List (α × β)}
    (h : l.lookup a = some b) : (a, b) ∈ l := by
  obtain ⟨before, after, rfl, -⟩ := List.lookup_eq_some_iff.mp h
  simp

/-- The meaning of a control sequence stands in the table, or is a letter or a function. -/
theorem ofName?_eq_some {name : String} {command : Command}
    (h : Command.ofName? name = some command) :
    (name, command) ∈ Command.table ∨
      (∃ c, command = .letter c ∧ Symbol.greekMacro? name = some c) ∨
      command = .function name ∧ Symbol.isFunction name := by
  unfold Command.ofName? at h
  cases ht : Command.table.lookup name with
  | some c =>
    simp only [ht, Option.orElse_eq_orElse, Option.orElse_some, Option.some.injEq] at h
    exact .inl (h ▸ mem_of_lookup ht)
  | none =>
    cases hg : Symbol.greekMacro? name with
    | some c =>
      refine .inr (.inl ⟨c, ?_, rfl⟩)
      simpa [ht, hg] using h.symm
    | none =>
      right
      right
      simp only [ht, hg, Option.map_none] at h
      by_cases hf : Symbol.isFunction name
      · simp [hf] at h
        exact ⟨h.symm, hf⟩
      · simp [hf] at h

theorem paren_of_ofName? {name : String} {c : Char}
    (h : Command.ofName? name = some (.paren c)) : c = '\x7b' ∨ c = '\x7d' := by
  obtain ht | ⟨_, hc, -⟩ | ⟨hc, -⟩ := ofName?_eq_some h
  · simp [Command.table] at ht
    exact ht.imp And.right And.right
  · cases hc
  · cases hc

theorem greekMacro?_of_ofName? {name : String} {c : Char}
    (h : Command.ofName? name = some (.letter c)) : Symbol.greekMacro? name = some c := by
  obtain ht | ⟨_, hc, hg⟩ | ⟨hc, -⟩ := ofName?_eq_some h
  · simp [Command.table] at ht
  · cases hc
    exact hg
  · cases hc

theorem isFunction_of_ofName? {name function : String}
    (h : Command.ofName? name = some (.function function)) : Symbol.isFunction function := by
  obtain ht | ⟨_, hc, -⟩ | ⟨hc, hf⟩ := ofName?_eq_some h
  · simp [Command.table] at ht
  · cases hc
  · cases hc
    exact hf

/-! ## Characters of the tables -/

theorem isAtomChar_of_greekMacro? {name : String} {c : Char}
    (h : Symbol.greekMacro? name = some c) : isAtomChar c := by
  have htable : ∀ entry ∈ Symbol.greekLetters ++ Symbol.variantMacros, isAtomChar entry.2 := by
    decide +kernel
  exact htable _ (mem_of_lookup h)

theorem legible_of_isFunction {name : String} (h : Symbol.isFunction name) :
    (Node.function name).Legible := by
  have htable : ∀ name ∈ Symbol.functions,
      name ≠ "" ∧ ∀ c ∈ name.toList, Unicode.isAlphanumeric c := by
    decide +kernel
  exact htable name (by simpa [Symbol.isFunction] using h)

theorem legible_ofChar {c : Char} (h : isAtomChar c) : (Node.ofChar c).Legible :=
  ⟨c, rfl, h⟩

/-- The plain characters behind script glyphs are symbols, signs of operators or parens. -/
theorem legible_plainNode {c g : Char}
    (h : Symbol.superscript? g = some c ∨ Symbol.subscript? g = some c) :
    (plainNode c).Legible := by
  have htable : ∀ entry ∈ Symbol.superscriptGlyphs ++ Symbol.subscriptGlyphs,
      (BinaryOp.ofChar? entry.2).isSome ∨ entry.2 = '(' ∨ entry.2 = ')' ∨ isAtomChar entry.2 := by
    decide +kernel
  have hmem : (g, c) ∈ Symbol.superscriptGlyphs ++ Symbol.subscriptGlyphs :=
    List.mem_append.mpr (h.imp mem_of_lookup mem_of_lookup)
  have := htable _ hmem
  unfold plainNode
  split
  · trivial
  · rename_i hb
    simp only [hb, Option.isSome_none, Bool.false_eq_true, false_or] at this
    split
    · rename_i hp
      obtain rfl | rfl : c = '(' ∨ c = ')' := by simpa using hp
      · exact (rfl : isParen '(' = true)
      · exact (rfl : isParen ')' = true)
    · rename_i hp
      obtain ⟨h1, h2⟩ : c ≠ '(' ∧ c ≠ ')' := by simpa using hp
      exact legible_ofChar ((this.resolve_left h1).resolve_left h2)

/-! ## Readers -/

theorem legible_single (hn : n.Legible) (hl : ∀ l ∈ n.lists, Node.EveryNode Node.Legible l) :
    Node.EveryNode Node.Legible [n] :=
  Node.everyNode_singleton.mpr ⟨hn, hl⟩

theorem legible_paren {c : Char} (h : isParen c = true) :
    Node.EveryNode Node.Legible [.paren c] :=
  legible_single h (by simp [Node.lists])

theorem legible_takeGlyphs {table : Char → Option Char}
    (ht : ∀ g c, table g = some c → (plainNode c).Legible) (lexemes : List Lexeme) :
    ∀ c ∈ (takeGlyphs table lexemes).1, (plainNode c).Legible := by
  fun_induction takeGlyphs table lexemes with
  | case1 c o rest p hp run rest' heq ih =>
    rw [heq] at ih
    simpa using ⟨ht c p hp, ih⟩
  | case2 | case3 => simp

theorem legible_glyphScript {run : List Char} (h : ∀ c ∈ run, (plainNode c).Legible) :
    ∀ l, glyphScript run = some l → Node.EveryNode Node.Legible l := by
  intro l hl
  unfold glyphScript at hl
  split at hl
  · cases hl
  · cases hl
    refine Node.everyNode_iff_forall.mpr fun n hn => ?_
    obtain ⟨c, hc, rfl⟩ := List.mem_map.mp hn
    refine legible_single (h c hc) ?_
    unfold plainNode
    split
    · simp [Node.lists]
    · split <;> simp [Node.lists, Node.ofChar]

theorem legible_scripts {exponent subscript : Option (List Node)}
    (hh : exponent.isSome ∨ subscript.isSome)
    (he : ∀ l, exponent = some l → Node.EveryNode Node.Legible l)
    (hs : ∀ l, subscript = some l → Node.EveryNode Node.Legible l) :
    Node.EveryNode Node.Legible [.scripts exponent subscript] := by
  refine legible_single ?_ fun l hl => ?_
  · cases exponent <;> cases subscript <;> simp_all [Node.Legible]
  · simp only [Node.lists, List.mem_append, Option.mem_toList] at hl
    exact hl.elim (he l) (hs l)

theorem isSome_glyphScript {run : List Char} : (glyphScript run).isSome ↔ run ≠ [] := by
  unfold glyphScript
  cases run <;> simp

theorem legible_readScriptGlyphs {c : Char} {o : Nat} (hc : isScriptGlyph c)
    (h : readScriptGlyphs (⟨.char c, o⟩ :: lexemes) = (n, rest)) :
    Node.EveryNode Node.Legible [n] := by
  have hsup : ∀ l, ∀ c ∈ (takeGlyphs Symbol.superscript? l).1, (plainNode c).Legible :=
    legible_takeGlyphs fun g c hg => legible_plainNode (.inl hg)
  have hsub : ∀ l, ∀ c ∈ (takeGlyphs Symbol.subscript? l).1, (plainNode c).Legible :=
    legible_takeGlyphs fun g c hg => legible_plainNode (.inr hg)
  have hsecond : Symbol.superscript? c = none → (Symbol.subscript? c).isSome := fun hn => by
    simpa [isScriptGlyph, hn] using hc
  unfold readScriptGlyphs at h
  simp only at h
  -- The first glyph is in one of the runs, so there is a script.
  split at h
  · rename_i hempty
    cases h
    cases hp : Symbol.superscript? c with
    | some p => simp [takeGlyphs, hp] at hempty
    | none =>
      obtain ⟨p, hp'⟩ := Option.isSome_iff_exists.mp (hsecond hp)
      refine legible_scripts (.inr (isSome_glyphScript.mpr ?_))
        (legible_glyphScript (hsup _)) (legible_glyphScript (hsub _))
      simp [takeGlyphs, hp, hp']
  · rename_i hne
    cases h
    exact legible_scripts (.inl (isSome_glyphScript.mpr (by simpa using hne)))
      (legible_glyphScript (hsup _)) (legible_glyphScript (hsub _))

theorem legible_readOperatorName (h : readOperatorName finish lexemes = .ok (n, rest)) :
    Node.EveryNode Node.Legible [n] := by
  have hletters : ∀ {lexemes letters rest}, readNameLetters finish lexemes = .ok (letters, rest) →
      ∀ c ∈ letters, Unicode.isAlphanumeric c := by
    intro lexemes
    fun_induction readNameLetters finish lexemes with
    | case1 => simp
    | case2 o rest =>
      intro letters rest' h
      cases h
      simp
    | case3 c o rest hc ih =>
      intro letters rest' h
      obtain ⟨⟨cs, rest''⟩, hcs, h⟩ := bind_eq_ok.mp h
      cases h
      simpa using ⟨hc, ih hcs⟩
    | case4 | case5 => simp
  unfold readOperatorName at h
  split at h
  · obtain ⟨⟨letters, rest'⟩, hl, h⟩ := bind_eq_ok.mp h
    simp only at h
    split at h
    · cases h
    · rename_i hne
      cases h
      refine legible_single ⟨?_, by simpa using hletters hl⟩ (by simp [Node.lists])
      intro hc
      apply hne
      simpa using congrArg String.toList hc
  · cases h

theorem legible_readRight (h : readRight finish lexemes = .ok (n, rest)) :
    Node.EveryNode Node.Legible [n] := by
  unfold readRight at h
  split at h
  · split at h
    · rename_i c o rest hc
      cases h
      obtain rfl | rfl : c = ')' ∨ c = ']' := by simpa using hc
      · exact legible_paren rfl
      · exact legible_paren rfl
    · exact absurd h missing_ne_ok
  · split at h
    · cases h
      exact legible_paren rfl
    · exact absurd h missing_ne_ok
  · exact absurd h missing_ne_ok

section Judgements

variable (hR : ∀ ending lexemes ns rest, R ending lexemes ns rest →
  Node.EveryNode Node.Legible ns)

include hR

theorem GroupBy.legible (h : GroupBy R lexemes ns rest) : Node.EveryNode Node.Legible ns := by
  obtain ⟨h⟩ := h
  exact hR _ _ _ _ h

theorem ArgumentBy.legible (h : ArgumentBy R lexemes ns rest) :
    Node.EveryNode Node.Legible ns := by
  cases h with
  | group h => exact hR _ _ _ _ h
  | char h => exact legible_single (legible_ofChar h) (by simp [Node.ofChar, Node.lists])
  | letter h =>
    exact legible_single (legible_ofChar (isAtomChar_of_greekMacro? h))
      (by simp [Node.ofChar, Node.lists])

theorem ScriptBy.legible {mark : Token} {script : Option (List Node)}
    (h : ScriptBy R mark lexemes script rest) :
    ∀ l, script = some l → Node.EveryNode Node.Legible l := by
  intro l hl
  cases h with
  | present h =>
    cases hl
    exact h.legible hR
  | absent => cases hl

theorem PairBy.legible {exponent subscript : Option (List Node)}
    (h : PairBy R lexemes exponent subscript rest) :
    (∀ l, exponent = some l → Node.EveryNode Node.Legible l) ∧
      ∀ l, subscript = some l → Node.EveryNode Node.Legible l := by
  cases h with
  | exponentFirst h h' => exact ⟨h.legible hR, h'.legible hR⟩
  | subscriptFirst _ h h' => exact ⟨h'.legible hR, h.legible hR⟩

theorem LeftBy.legible (h : LeftBy R lexemes n rest) : Node.EveryNode Node.Legible [n] := by
  cases h with
  | paren h =>
    obtain rfl | rfl := h
    · exact legible_paren rfl
    · exact legible_paren rfl
  | brace => exact legible_paren rfl
  | bar h => exact legible_single trivial (by simpa [Node.lists] using hR _ _ _ _ h)
  | corner _ h => exact legible_single trivial (by simpa [Node.lists] using hR _ _ _ _ h)

theorem CommandBy.legible {name : String} {command : Command} {n : Option Node}
    (hn : Command.ofName? name = some command) (h : CommandBy R finish command lexemes n rest) :
    Node.EveryNode Node.Legible n.toList := by
  cases h with
  | frac h h' =>
    exact legible_single trivial (by simpa [Node.lists] using ⟨h.legible hR, h'.legible hR⟩)
  | squareRoot h => exact legible_single trivial (by simpa [Node.lists] using h.legible hR)
  | root h h' =>
    exact legible_single trivial (by simpa [Node.lists] using ⟨hR _ _ _ _ h, h'.legible hR⟩)
  | wrap h => exact legible_single trivial (by simpa [Node.lists] using h.legible hR)
  | corner h => exact legible_single trivial (by simpa [Node.lists] using hR _ _ _ _ h)
  | operatorName h => exact legible_readOperatorName h
  | times => exact legible_single trivial (by simp [Node.lists])
  | paren =>
    obtain rfl | rfl := paren_of_ofName? hn
    · exact legible_paren rfl
    · exact legible_paren rfl
  | @big _ _ _ top bottom h =>
    have hlist : ∀ {script : Option (List Node)},
        (∀ l, script = some l → Node.EveryNode Node.Legible l) →
        Node.EveryNode Node.Legible (script.getD []) := by
      rintro (_ | l) hl
      · exact Node.everyNode_nil
      · exact hl l rfl
    obtain ⟨ht, hb⟩ := h.legible hR
    exact legible_single trivial (by simpa [Node.lists] using ⟨hlist ht, hlist hb⟩)
  | left h => exact h.legible hR
  | right h => exact legible_readRight h
  | spacing => exact Node.everyNode_nil
  | letter =>
    exact legible_single (legible_ofChar (isAtomChar_of_greekMacro? (greekMacro?_of_ofName? hn)))
      (by simp [Node.ofChar, Node.lists])
  | function =>
    exact legible_single (legible_of_isFunction (isFunction_of_ofName? hn)) (by simp [Node.lists])

theorem ItemBy.legible (h : ItemBy R finish lexemes ns rest) :
    Node.EveryNode Node.Legible ns := by
  cases h with
  | group h => exact hR _ _ _ _ h
  | scripts hl h =>
    obtain ⟨he, hs⟩ := h.legible hR
    exact legible_scripts (h.isSome hl) he hs
  | glyphs hc h => exact legible_readScriptGlyphs hc h
  | bar h => exact legible_single trivial (by simpa [Node.lists] using hR _ _ _ _ h)
  | paren hc => obtain rfl | rfl | rfl | rfl := hc <;> exact legible_paren rfl
  | binary => exact legible_single trivial (by simp [Node.lists])
  | atom hc => exact legible_single (legible_ofChar hc) (by simp [Node.ofChar, Node.lists])
  | command hn h => exact h.legible hR hn

end Judgements

/-- Whatever is read is legible at every depth. -/
theorem legible_readListWith {fuel openBrackets : Nat} {ending : Ending}
    (h : readListWith finish fuel ending openBrackets lexemes = .ok (ns, rest)) :
    Node.EveryNode Node.Legible ns := by
  induction fuel generalizing ending openBrackets lexemes ns rest with
  | zero => cases h
  | succ fuel ih =>
    obtain ⟨-, rfl⟩ | ⟨-, first, middle, more, hi, hm, rfl⟩ := (readListWith_iff finish).mp h
    · exact Node.everyNode_nil
    · exact Node.everyNode_append.mpr ⟨hi.legible fun _ _ _ _ h => ih h, ih hm⟩

/-- The notation of any text that can be read is legible at every depth. -/
theorem legible_of_read {text : String} (h : read text = .ok ns) :
    Node.EveryNode Node.Legible ns := by
  obtain ⟨⟨ns, rest⟩, hr, h⟩ := bind_eq_ok.mp h
  cases h
  exact legible_readListWith hr

end Tex

end FormulaEditor
