import FormulaEditor.Proofs.Outcome
import FormulaEditor.Proofs.Text.Characters
import FormulaEditor.Tex.Reader

/-!
# What the readers accept

For each reader a judgement that says which lexemes it accepts, what it makes of them and what it
leaves. The judgements are about a reading of lists that is left open, as the readers are given the
reader of lists. Each comes with the fact that the reader accepts just what the judgement says.
-/

namespace FormulaEditor.Tex

/-- Which lexemes are accepted as a list up to an ending, with the nodes of the list and the lexemes
after it. -/
abbrev ListReading := Ending → List Lexeme → List Node → List Lexeme → Prop

/-- What a reader of lists accepts. -/
def ListReader.reading (readList : ListReader) : ListReading := fun ending lexemes ns rest =>
  readList ending lexemes = .ok (ns, rest)

section Judgements

variable (R : ListReading)

/-- A list in braces. -/
inductive GroupBy : List Lexeme → List Node → List Lexeme → Prop
  | intro {o : Nat} {lexemes : List Lexeme} {ns : List Node} {rest : List Lexeme}
    (h : R .group lexemes ns rest) : GroupBy (⟨.beginGroup, o⟩ :: lexemes) ns rest

/-- The argument of a script. -/
inductive ArgumentBy : List Lexeme → List Node → List Lexeme → Prop
  | group {o : Nat} {lexemes : List Lexeme} {ns : List Node} {rest : List Lexeme}
    (h : R .group lexemes ns rest) : ArgumentBy (⟨.beginGroup, o⟩ :: lexemes) ns rest
  | char {c : Char} {o : Nat} {rest : List Lexeme} (h : isAtomChar c) :
    ArgumentBy (⟨.char c, o⟩ :: rest) [.ofChar c] rest
  | letter {name : String} {c : Char} {o : Nat} {rest : List Lexeme}
    (h : Symbol.greekMacro? name = some c) :
    ArgumentBy (⟨.command name, o⟩ :: rest) [.ofChar c] rest

/-- A script behind its mark, or no script. -/
inductive ScriptBy (mark : Token) : List Lexeme → Option (List Node) → List Lexeme → Prop
  | present {o : Nat} {lexemes : List Lexeme} {ns : List Node} {rest : List Lexeme}
    (h : ArgumentBy R lexemes ns rest) :
    ScriptBy mark (⟨mark, o⟩ :: lexemes) (some ns) rest
  | absent {lexemes : List Lexeme} (h : ∀ l, lexemes.head? = some l → l.token ≠ mark) :
    ScriptBy mark lexemes none lexemes

/-- An exponent and a subscript in either order. -/
inductive PairBy : List Lexeme → Option (List Node) → Option (List Node) → List Lexeme → Prop
  | exponentFirst {lexemes middle rest : List Lexeme} {exponent : List Node}
    {subscript : Option (List Node)}
    (h : ScriptBy R .superscript lexemes (some exponent) middle)
    (h' : ScriptBy R .subscript middle subscript rest) :
    PairBy lexemes (some exponent) subscript rest
  | subscriptFirst {lexemes middle rest : List Lexeme} {exponent subscript : Option (List Node)}
    (hn : ScriptBy R .superscript lexemes none lexemes)
    (h : ScriptBy R .subscript lexemes subscript middle)
    (h' : ScriptBy R .superscript middle exponent rest) :
    PairBy lexemes exponent subscript rest

/-- The delimiter after a sizing hint that opens. -/
inductive LeftBy : List Lexeme → Node → List Lexeme → Prop
  | paren {c : Char} {o : Nat} {rest : List Lexeme} (h : c = '(' ∨ c = '[') :
    LeftBy (⟨.char c, o⟩ :: rest) (.paren c) rest
  | brace {name : String} {o : Nat} {rest : List Lexeme}
    (h : Command.ofName? name = some (.paren '\x7b')) :
    LeftBy (⟨.command name, o⟩ :: rest) (.paren '\x7b') rest
  | bar {o : Nat} {lexemes : List Lexeme} {ns : List Node} {rest : List Lexeme}
    (h : R .sizedBar lexemes ns rest) :
    LeftBy (⟨.char '|', o⟩ :: lexemes) (.wrapped .abs ns) rest
  | corner {name : String} {o : Nat} {lexemes : List Lexeme} {ns : List Node}
    {rest : List Lexeme} {corner : Corner}
    (hn : Command.ofName? name = some (.corner corner)) (h : R (.corner corner) lexemes ns rest) :
    LeftBy (⟨.command name, o⟩ :: lexemes) (.wrapped corner.wrap ns) rest

/-- The notation of a command. Spacing has none. -/
inductive CommandBy (finish : Nat) : Command → List Lexeme → Option Node → List Lexeme → Prop
  | frac {lexemes middle rest : List Lexeme} {numerator denominator : List Node}
    (h : GroupBy R lexemes numerator middle) (h' : GroupBy R middle denominator rest) :
    CommandBy finish .frac lexemes (some (.frac numerator denominator)) rest
  | squareRoot {lexemes rest : List Lexeme} {radicand : List Node}
    (h : GroupBy R lexemes radicand rest) :
    CommandBy finish .sqrt lexemes (some (.radical none radicand)) rest
  | root {o : Nat} {lexemes middle rest : List Lexeme} {index radicand : List Node}
    (h : R .bracket lexemes index middle) (h' : GroupBy R middle radicand rest) :
    CommandBy finish .sqrt (⟨.char '[', o⟩ :: lexemes) (some (.radical (some index) radicand)) rest
  | wrap {w : Wrap} {lexemes rest : List Lexeme} {argument : List Node}
    (h : GroupBy R lexemes argument rest) :
    CommandBy finish (.wrap w) lexemes (some (.wrapped w argument)) rest
  | corner {c : Corner} {lexemes rest : List Lexeme} {argument : List Node}
    (h : R (.corner c) lexemes argument rest) :
    CommandBy finish (.corner c) lexemes (some (.wrapped c.wrap argument)) rest
  | operatorName {lexemes rest : List Lexeme} {n : Node}
    (h : readOperatorName finish lexemes = .ok (n, rest)) :
    CommandBy finish .operatorName lexemes (some n) rest
  | times {rest : List Lexeme} : CommandBy finish .times rest (some (.binary .times)) rest
  | paren {c : Char} {rest : List Lexeme} : CommandBy finish (.paren c) rest (some (.paren c)) rest
  | big {op : BigOp} {lexemes rest : List Lexeme} {top bottom : Option (List Node)}
    (h : PairBy R lexemes top bottom rest) :
    CommandBy finish (.big op) lexemes (some (.big op (top.getD []) (bottom.getD []))) rest
  | left {lexemes rest : List Lexeme} {n : Node} (h : LeftBy R lexemes n rest) :
    CommandBy finish .left lexemes (some n) rest
  | right {lexemes rest : List Lexeme} {n : Node}
    (h : readRight finish lexemes = .ok (n, rest)) :
    CommandBy finish .right lexemes (some n) rest
  | spacing {rest : List Lexeme} : CommandBy finish .spacing rest none rest
  | letter {c : Char} {rest : List Lexeme} :
    CommandBy finish (.letter c) rest (some (.ofChar c)) rest
  | function {name : String} {rest : List Lexeme} :
    CommandBy finish (.function name) rest (some (.function name)) rest

/-- Whether a character is a raised or lowered glyph. -/
def isScriptGlyph (c : Char) : Bool :=
  (Symbol.superscript? c).isSome || (Symbol.subscript? c).isSome

/-- The next notation of a list. -/
inductive ItemBy (finish : Nat) : List Lexeme → List Node → List Lexeme → Prop
  | group {o : Nat} {lexemes rest : List Lexeme} {ns : List Node} (h : R .group lexemes ns rest) :
    ItemBy finish (⟨.beginGroup, o⟩ :: lexemes) ns rest
  | scripts {l : Lexeme} {lexemes rest : List Lexeme} {exponent subscript : Option (List Node)}
    (hl : l.token = .superscript ∨ l.token = .subscript)
    (h : PairBy R (l :: lexemes) exponent subscript rest) :
    ItemBy finish (l :: lexemes) [.scripts exponent subscript] rest
  | glyphs {c : Char} {o : Nat} {lexemes rest : List Lexeme} {n : Node} (hc : isScriptGlyph c)
    (h : readScriptGlyphs (⟨.char c, o⟩ :: lexemes) = (n, rest)) :
    ItemBy finish (⟨.char c, o⟩ :: lexemes) [n] rest
  | bar {o : Nat} {lexemes rest : List Lexeme} {ns : List Node} (h : R .bar lexemes ns rest) :
    ItemBy finish (⟨.char '|', o⟩ :: lexemes) [.wrapped .abs ns] rest
  | paren {c : Char} {o : Nat} {rest : List Lexeme}
    (hc : c = '(' ∨ c = ')' ∨ c = '[' ∨ c = ']') :
    ItemBy finish (⟨.char c, o⟩ :: rest) [.paren c] rest
  | binary {c : Char} {op : BinaryOp} {o : Nat} {rest : List Lexeme}
    (hc : BinaryOp.ofChar? c = some op) :
    ItemBy finish (⟨.char c, o⟩ :: rest) [.binary op] rest
  | atom {c : Char} {o : Nat} {rest : List Lexeme} (hc : isAtomChar c)
    (hg : isScriptGlyph c = false) (hb : BinaryOp.ofChar? c = none) :
    ItemBy finish (⟨.char c, o⟩ :: rest) [.ofChar c] rest
  | command {name : String} {command : Command} {o : Nat} {lexemes rest : List Lexeme}
    {n : Option Node} (hn : Command.ofName? name = some command)
    (h : CommandBy R finish command lexemes n rest) :
    ItemBy finish (⟨.command name, o⟩ :: lexemes) n.toList rest

end Judgements

/-- Where a mark stands first there is a script. -/
theorem PairBy.isSome {R : ListReading} {l : Lexeme} {lexemes rest : List Lexeme}
    {exponent subscript : Option (List Node)}
    (hl : l.token = .superscript ∨ l.token = .subscript)
    (h : PairBy R (l :: lexemes) exponent subscript rest) :
    exponent.isSome ∨ subscript.isSome := by
  cases h with
  | exponentFirst => exact .inl rfl
  | subscriptFirst hn h h' =>
    cases h with
    | present => exact .inr rfl
    | absent hs =>
      cases hn with
      | absent hn => exact absurd hl (not_or.mpr ⟨hn l rfl, hs l rfl⟩)

section Readers

variable (finish : Nat) {readList : ListReader} {lexemes rest : List Lexeme} {ns : List Node}

variable {finish} in
theorem missing_ne_ok {α : Type} {atEnd otherwise : Expectation} {r : α × List Lexeme} :
    missing finish atEnd otherwise lexemes ≠ .ok r := by
  unfold missing
  split <;> simp

theorem readGroup_iff : readGroup finish readList lexemes = .ok (ns, rest) ↔
    GroupBy readList.reading lexemes ns rest := by
  constructor
  · intro h
    unfold readGroup at h
    split at h
    · exact .intro h
    · exact absurd h missing_ne_ok
  · rintro ⟨h⟩
    exact h

theorem readScriptArgument_iff : readScriptArgument finish readList lexemes = .ok (ns, rest) ↔
    ArgumentBy readList.reading lexemes ns rest := by
  constructor
  · intro h
    unfold readScriptArgument at h
    split at h
    · exact .group h
    · split at h
      · cases h
        exact .char ‹_›
      · exact absurd h missing_ne_ok
    · rename_i name o rest'
      cases hn : Symbol.greekMacro? name with
      | none =>
        simp only [hn, Option.elim_none] at h
        exact absurd h missing_ne_ok
      | some c =>
        simp only [hn, Option.elim_some] at h
        cases h
        exact .letter hn
    · exact absurd h missing_ne_ok
  · rintro (h | h | h)
    · exact h
    · simp [readScriptArgument, h]
    · simp [readScriptArgument, h]

theorem readScript?_iff {mark : Token} {script : Option (List Node)} :
    readScript? finish readList mark lexemes = .ok (script, rest) ↔
      ScriptBy readList.reading mark lexemes script rest := by
  constructor
  · intro h
    unfold readScript? at h
    split at h
    · cases h
      exact .absent (by simp)
    · rename_i l lexemes
      split at h
      · rename_i hl
        obtain ⟨⟨ns, rest'⟩, ha, hr⟩ := bind_eq_ok.mp h
        cases hr
        obtain ⟨token, o⟩ := l
        subst hl
        exact .present ((readScriptArgument_iff finish).mp ha)
      · cases h
        exact .absent (by simpa)
  · rintro (h | h)
    · simp only [readScript?, ↓reduceIte, (readScriptArgument_iff finish).mpr h]
      rfl
    · unfold readScript?
      split
      · rfl
      · rename_i l lexemes
        rw [if_neg (h l rfl)]

theorem readScriptPair_iff {exponent subscript : Option (List Node)} :
    readScriptPair finish readList lexemes = .ok ((exponent, subscript), rest) ↔
      PairBy readList.reading lexemes exponent subscript rest := by
  constructor
  · intro h
    unfold readScriptPair at h
    obtain ⟨⟨e, middle⟩, he, h⟩ := bind_eq_ok.mp h
    obtain ⟨⟨s, middle'⟩, hs, h⟩ := bind_eq_ok.mp h
    rw [readScript?_iff] at he hs
    simp only at h
    split at h
    · cases h
      obtain ⟨e, rfl⟩ := Option.isSome_iff_exists.mp ‹_›
      exact .exponentFirst he hs
    · obtain ⟨⟨e', middle''⟩, he', h⟩ := bind_eq_ok.mp h
      rw [readScript?_iff] at he'
      cases h
      obtain rfl : e = none := Option.not_isSome_iff_eq_none.mp ‹_›
      cases he with
      | absent hn => exact .subscriptFirst (.absent hn) hs he'
  · rintro (⟨h, h'⟩ | ⟨hn, h, h'⟩)
    · unfold readScriptPair
      rw [← readScript?_iff finish] at h h'
      simp only [h, h', bind, Except.bind, Option.isSome_some, ↓reduceIte]
    · unfold readScriptPair
      rw [← readScript?_iff finish] at hn h h'
      simp only [hn, h, h', bind, Except.bind, Option.isSome_none, Bool.false_eq_true, ↓reduceIte]

theorem readLeft_iff {n : Node} : readLeft finish readList lexemes = .ok (n, rest) ↔
    LeftBy readList.reading lexemes n rest := by
  constructor
  · intro h
    unfold readLeft at h
    split at h
    · split at h
      · cases h
        rename_i hc
        exact .paren (by simpa using hc)
      · split at h
        · rename_i c o lexemes hc hbar
          obtain ⟨⟨ns, rest'⟩, ha, hr⟩ := bind_eq_ok.mp h
          cases hr
          obtain rfl : c = '|' := by simpa using hbar
          exact .bar ha
        · exact absurd h missing_ne_ok
    · split at h
      · cases h
        exact .brace ‹_›
      · rename_i corner hn
        obtain ⟨⟨ns, rest'⟩, ha, hr⟩ := bind_eq_ok.mp h
        cases hr
        exact .corner hn ha
      · exact absurd h missing_ne_ok
    · exact absurd h missing_ne_ok
  · rintro (h | h | h | ⟨hn, h⟩)
    · obtain rfl | rfl := h <;> rfl
    · simp [readLeft, h]
    · have h : readList .sizedBar _ = _ := h
      simp [readLeft, h, bind, Except.bind]
    · have h : readList (.corner _) _ = _ := h
      simp [readLeft, hn, h, bind, Except.bind]

theorem readRadical_iff {n : Node} : readRadical finish readList lexemes = .ok (n, rest) ↔
    CommandBy readList.reading finish .sqrt lexemes (some n) rest := by
  constructor
  · intro h
    unfold readRadical at h
    split at h
    · obtain ⟨⟨index, middle⟩, hi, h⟩ := bind_eq_ok.mp h
      obtain ⟨⟨radicand, rest'⟩, hr, h⟩ := bind_eq_ok.mp h
      cases h
      exact .root hi ((readGroup_iff finish).mp hr)
    · obtain ⟨⟨radicand, rest'⟩, hr, h⟩ := bind_eq_ok.mp h
      cases h
      exact .squareRoot ((readGroup_iff finish).mp hr)
  · intro h
    cases h with
    | squareRoot h =>
      have hr := (readGroup_iff finish).mpr h
      obtain ⟨h⟩ := h
      simp only [readRadical, hr, bind, Except.bind]
    | root h h' =>
      have h : readList .bracket _ = _ := h
      simp only [readRadical, h, (readGroup_iff finish).mpr h', bind, Except.bind]

theorem readCommand_iff {command : Command} {n : Option Node} :
    readCommand finish readList lexemes command = .ok (n, rest) ↔
      CommandBy readList.reading finish command lexemes n rest := by
  constructor
  · intro h
    unfold readCommand at h
    split at h
    · obtain ⟨⟨a, middle⟩, ha, h⟩ := bind_eq_ok.mp h
      obtain ⟨⟨b, rest'⟩, hb, h⟩ := bind_eq_ok.mp h
      cases h
      exact .frac ((readGroup_iff finish).mp ha) ((readGroup_iff finish).mp hb)
    · obtain ⟨⟨n, rest'⟩, hn, h⟩ := bind_eq_ok.mp h
      cases h
      exact (readRadical_iff finish).mp hn
    · obtain ⟨⟨a, rest'⟩, ha, h⟩ := bind_eq_ok.mp h
      cases h
      exact .wrap ((readGroup_iff finish).mp ha)
    · obtain ⟨⟨a, rest'⟩, ha, h⟩ := bind_eq_ok.mp h
      cases h
      exact .corner ha
    · obtain ⟨⟨n, rest'⟩, hn, h⟩ := bind_eq_ok.mp h
      cases h
      exact .operatorName hn
    · cases h
      exact .times
    · cases h
      exact .paren
    · obtain ⟨⟨⟨top, bottom⟩, rest'⟩, hp, h⟩ := bind_eq_ok.mp h
      cases h
      exact .big ((readScriptPair_iff finish).mp hp)
    · obtain ⟨⟨n, rest'⟩, hn, h⟩ := bind_eq_ok.mp h
      cases h
      exact .left ((readLeft_iff finish).mp hn)
    · obtain ⟨⟨n, rest'⟩, hn, h⟩ := bind_eq_ok.mp h
      cases h
      exact .right hn
    · cases h
      exact .spacing
    · cases h
      exact .letter
    · cases h
      exact .function
  · intro h
    cases h with
    | frac h h' =>
      simp only [readCommand, (readGroup_iff finish).mpr h, (readGroup_iff finish).mpr h', bind,
        Except.bind]
    | squareRoot h =>
      simp only [readCommand, (readRadical_iff finish).mpr (.squareRoot h), bind, Except.bind]
    | root h h' =>
      simp only [readCommand, (readRadical_iff finish).mpr (.root h h'), bind, Except.bind]
    | wrap h => simp only [readCommand, (readGroup_iff finish).mpr h, bind, Except.bind]
    | corner h =>
      have h : readList (.corner _) _ = _ := h
      simp only [readCommand, h, bind, Except.bind]
    | operatorName h => simp only [readCommand, h, bind, Except.bind]
    | big h => simp only [readCommand, (readScriptPair_iff finish).mpr h, bind, Except.bind]
    | left h => simp only [readCommand, (readLeft_iff finish).mpr h, bind, Except.bind]
    | right h => simp only [readCommand, h, bind, Except.bind]
    | times | paren | spacing | letter | function => rfl

/-- No sign of an operator is a bar, a paren or a script glyph. -/
theorem isScriptGlyph_of_ofChar? {c : Char} {op : BinaryOp} (h : BinaryOp.ofChar? c = some op) :
    isScriptGlyph c = false ∧ (c == '|') = false ∧
      (c == '(' || c == ')' || c == '[' || c == ']') = false := by
  unfold BinaryOp.ofChar? at h
  split at h <;> first | decide | cases h

theorem readItem_char {ending : Ending} {c : Char} {o : Nat} (hc : isScriptGlyph c = false) :
    readItem finish readList ending (⟨.char c, o⟩ :: rest) =
      (readChar readList c o rest).map fun r => ([r.1], r.2) := by
  unfold isScriptGlyph at hc
  simp only [readItem, hc, Bool.false_eq_true, ↓reduceIte]
  cases readChar readList c o rest <;> rfl

theorem itemBy_of_readChar {c : Char} {o : Nat} {n : Node} (hc : isScriptGlyph c = false)
    (h : readChar readList c o lexemes = .ok (n, rest)) :
    ItemBy readList.reading finish (⟨.char c, o⟩ :: lexemes) [n] rest := by
  unfold readChar at h
  split at h
  · rename_i hbar
    obtain rfl : c = '|' := by simpa using hbar
    obtain ⟨⟨a, rest'⟩, ha, h⟩ := bind_eq_ok.mp h
    cases h
    exact .bar ha
  · split at h
    · rename_i hp
      cases h
      exact .paren (by simpa [or_assoc] using hp)
    · split at h
      · cases h
        exact .binary ‹_›
      · split at h
        · cases h
          exact .atom ‹_› hc ‹_›
        · cases h

/-- No symbol is a bar or a paren. -/
theorem isAtomChar_ne {c : Char} (h : isAtomChar c) :
    (c == '|') = false ∧ (c == '(' || c == ')' || c == '[' || c == ']') = false := by
  have hnot : ∀ d ∈ ['|', '(', ')', '[', ']'], isAtomChar d = false := by decide
  have hne : ∀ d ∈ ['|', '(', ')', '[', ']'], c ≠ d := by
    rintro d hd rfl
    simp [hnot c hd] at h
  simp only [List.forall_mem_cons] at hne
  simp [hne]

theorem readItem_iff {ending : Ending} : readItem finish readList ending lexemes = .ok (ns, rest) ↔
    ItemBy readList.reading finish lexemes ns rest := by
  constructor
  · intro h
    unfold readItem at h
    split at h
    · cases h
    · cases h
    · exact .group h
    · obtain ⟨⟨⟨exponent, subscript⟩, rest'⟩, hp, h⟩ := bind_eq_ok.mp h
      cases h
      exact .scripts (.inl rfl) ((readScriptPair_iff finish).mp hp)
    · obtain ⟨⟨⟨exponent, subscript⟩, rest'⟩, hp, h⟩ := bind_eq_ok.mp h
      cases h
      exact .scripts (.inr rfl) ((readScriptPair_iff finish).mp hp)
    · rename_i c o lexemes
      split at h
      · rename_i hc
        cases h
        exact .glyphs hc rfl
      · rename_i hc
        obtain ⟨⟨n, rest'⟩, hn, h⟩ := bind_eq_ok.mp h
        cases h
        exact itemBy_of_readChar finish (by simpa [isScriptGlyph] using hc) hn
    · split at h
      · rename_i command hc
        obtain ⟨⟨n, rest'⟩, hn, h⟩ := bind_eq_ok.mp h
        cases h
        exact .command hc ((readCommand_iff finish).mp hn)
      · cases h
  · intro h
    cases h with
    | group h => exact h
    | @scripts l lexemes rest exponent subscript hl h =>
      obtain ⟨token, o⟩ := l
      have hp := (readScriptPair_iff finish).mpr h
      obtain rfl | rfl := hl <;> simp only [readItem, hp, bind, Except.bind]
    | glyphs hc h =>
      unfold isScriptGlyph at hc
      simp only [readItem, hc, ↓reduceIte, h]
    | bar h =>
      have h : readList .bar _ = _ := h
      rw [readItem_char finish (by decide)]
      simp [readChar, h, bind, Except.bind, Except.map]
    | paren hc =>
      rw [readItem_char finish (by obtain rfl | rfl | rfl | rfl := hc <;> decide)]
      obtain rfl | rfl | rfl | rfl := hc <;> rfl
    | binary hc =>
      obtain ⟨hg, hbar, hp⟩ := isScriptGlyph_of_ofChar? hc
      rw [readItem_char finish hg]
      simp only [readChar, hbar, hp, hc, Bool.false_eq_true, ↓reduceIte, Except.map]
    | atom hc hg hb =>
      obtain ⟨hbar, hp⟩ := isAtomChar_ne hc
      rw [readItem_char finish hg]
      simp only [readChar, hbar, hp, hb, hc, Bool.false_eq_true, ↓reduceIte, Except.map]
    | command hn h =>
      have h := (readCommand_iff finish).mpr h
      simp only [readItem, hn, h, bind, Except.bind]

/-- The reader of the lists inside a list. -/
def listsInside (finish fuel : Nat) : ListReader :=
  fun inner => readListWith finish fuel inner 0

/-- A list is read item by item until it closes. -/
theorem readListWith_iff {fuel openBrackets : Nat} {ending : Ending} :
    readListWith finish (fuel + 1) ending openBrackets lexemes = .ok (ns, rest) ↔
      ending.close? openBrackets lexemes = some rest ∧ ns = [] ∨
      ending.close? openBrackets lexemes = none ∧ ∃ first middle more,
        ItemBy (listsInside finish fuel).reading finish lexemes first middle ∧
        readListWith finish fuel ending (bracketsAfter openBrackets lexemes) middle =
          .ok (more, rest) ∧ ns = first ++ more := by
  rw [readListWith]
  cases hc : ending.close? openBrackets lexemes with
  | some after => simp [eq_comm, and_comm]
  | none =>
    simp only [reduceCtorEq, false_and, false_or, true_and]
    constructor
    · intro h
      obtain ⟨⟨first, middle⟩, hi, h⟩ := bind_eq_ok.mp h
      obtain ⟨⟨more, rest'⟩, hm, h⟩ := bind_eq_ok.mp h
      cases h
      exact ⟨first, middle, more, (readItem_iff finish).mp hi, hm, rfl⟩
    · rintro ⟨first, middle, more, hi, hm, rfl⟩
      have hi : readItem finish (listsInside finish fuel) ending lexemes = _ :=
        (readItem_iff finish).mpr hi
      refine bind_eq_ok.mpr ⟨_, hi, bind_eq_ok.mpr ⟨_, hm, rfl⟩⟩

end Readers

end FormulaEditor.Tex
