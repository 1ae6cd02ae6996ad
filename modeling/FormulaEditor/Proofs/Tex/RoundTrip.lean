import FormulaEditor.Proofs.Tex.Canonical
import FormulaEditor.Proofs.Tex.Reading

/-!
# What is written is read back

The text of legible notation is read as that notation just if it is canonical. Nodes are read one at
a time: the first token of a node decides what is read, and the node after it whether more is read
than the node.
-/

namespace FormulaEditor.Tex

open Node (EveryNode Legible bracketsFrom)

variable {n : Node} {ns : List Node} {t : Token} {ts tail : List Token} {m : List Lexeme}

/-! ## First tokens -/

/-- What the first token of a node tells about the node. -/
structure Begins (n : Node) (t : Token) : Prop where
  beginGroup : t ≠ .beginGroup
  endGroup : t ≠ .endGroup
  spacing : ∀ name, t = .command name → Command.ofName? name ≠ some .spacing
  opens : t = .char '[' ↔ n = .paren '['
  closes : t = .char ']' ↔ n = .paren ']'
  raises : t = .superscript ↔ ∃ exponent, n = .scripts (some exponent) none
  lowers : t = .subscript ↔ ∃ exponent subscript, n = .scripts exponent (some subscript)

theorem begins_command {name : String} (hn : Command.ofName? name ≠ some .spacing)
    (hopen : n ≠ .paren '[') (hclose : n ≠ .paren ']')
    (hs : ∀ exponent subscript, n ≠ .scripts exponent subscript) : Begins n (.command name) := by
  constructor <;> simp_all

theorem begins_char {c : Char} (hcopen : c ≠ '[') (hcclose : c ≠ ']')
    (hopen : n ≠ .paren '[') (hclose : n ≠ .paren ']')
    (hs : ∀ exponent subscript, n ≠ .scripts exponent subscript) : Begins n (.char c) := by
  constructor <;> simp_all

theorem begins_paren {c : Char} (h : isParen c) : Begins (.paren c) (parenToken c) := by
  obtain rfl | rfl | rfl | rfl | rfl | rfl := isParen_iff.mp h
  · exact begins_char (by decide) (by decide) (by simp) (by simp) (by simp)
  · constructor <;> simp [parenToken]
  · exact begins_command (by decide) (by simp) (by simp) (by simp)
  · exact begins_char (by decide) (by decide) (by simp) (by simp) (by simp)
  · constructor <;> simp [parenToken]
  · exact begins_command (by decide) (by simp) (by simp) (by simp)

theorem exists_begins (hn : n.Legible) : ∃ t ts, tokens n = t :: ts ∧ Begins n t := by
  rcases n with text | op | _ | c | _ | ⟨_ | _, _⟩ | ⟨_ | _, _ | _⟩ | wrap | op
  case atom =>
    obtain ⟨c, rfl, hc⟩ := hn.exists_char
    obtain ⟨-, hparen⟩ := isAtomChar_ne (isAtomChar_plain hc)
    simp only [Bool.or_eq_false_iff, beq_eq_false_iff_ne] at hparen
    exact ⟨_, [], by simp [tokens], begins_char hparen.1.2 hparen.2 (by simp) (by simp) (by simp)⟩
  case binary =>
    cases op with
    | times => exact ⟨_, [], rfl, begins_command (by decide) (by simp) (by simp) (by simp)⟩
    | plus | minus | equals =>
      exact ⟨_, [], rfl, begins_char (by decide) (by decide) (by simp) (by simp) (by simp)⟩
  case paren => exact ⟨_, [], rfl, begins_paren hn⟩
  case scripts.none.none => exact absurd hn (by simp [Node.Legible])
  case scripts.none.some | scripts.some.none | scripts.some.some =>
    refine ⟨_, _, rfl, ?_⟩
    constructor <;> simp
  case wrapped =>
    cases wrap <;> exact ⟨_, _, rfl, begins_command (by decide) (by simp) (by simp) (by simp)⟩
  case big =>
    cases op <;> exact ⟨_, _, rfl, begins_command (by decide) (by simp) (by simp) (by simp)⟩
  all_goals exact ⟨_, _, rfl, begins_command (by decide) (by simp) (by simp) (by simp)⟩

/-! ## Items -/

section Items

variable {R : ListReading} {finish o : Nat} {lexemes rest : List Lexeme} {name : String}
  {command : Command}

theorem itemBy_command_iff (hn : Command.ofName? name = some command) :
    ItemBy R finish (⟨.command name, o⟩ :: lexemes) [n] rest ↔
      CommandBy R finish command lexemes (some n) rest := by
  constructor
  · intro h
    generalize hns : [n] = ns at h
    cases h with
    | scripts hl => simp at hl
    | @command _ command' _ _ _ n' hn' h =>
      obtain rfl : command = command' := Option.some.inj (hn.symm.trans hn')
      obtain rfl : n' = some n := by
        cases n' <;> simp_all
      exact h
  · exact .command hn

/-- Only groups and spacing are read as anything but one node. -/
theorem ItemBy.single (hg : t ≠ .beginGroup)
    (hs : ∀ name, t = .command name → Command.ofName? name ≠ some .spacing)
    (h : ItemBy R finish (⟨t, o⟩ :: lexemes) ns rest) : ∃ n, ns = [n] := by
  cases h with
  | group => exact absurd rfl hg
  | command hn h =>
    cases h with
    | spacing => exact absurd hn (hs _ rfl)
    | _ => exact ⟨_, rfl⟩
  | _ => exact ⟨_, rfl⟩

/-- Tokens at which a list closes, with the tokens behind it. -/
inductive Closes : Ending → List Token → List Token → Prop
  | input : Closes .input [] []
  | group (after : List Token) : Closes .group (.endGroup :: after) after
  | bracket (after : List Token) : Closes .bracket (.char ']' :: after) after

/-- The tokens of the list are read as the list just if it is canonical. -/
structure Returns (ns : List Node) : Prop where
  reads_iff : ∀ {ending openBrackets closing after rest}, Closes ending closing after →
    (Reads ending openBrackets (tokensAll ns ++ closing) ns rest ↔
      Canonical ns ∧ (ending = .bracket → bracketsFrom openBrackets ns = some 0) ∧ rest = after)

variable {ending : Ending} {closing after : List Token} {l : List Node}

theorem Returns.reading_iff (h : Returns l) (hc : Closes ending closing after) :
    reading ending (bare (tokensAll l ++ closing)) l m ↔
      Canonical l ∧ (ending = .bracket → bracketsFrom 0 l = some 0) ∧ m = bare after := by
  constructor
  · intro hr
    obtain ⟨rest, rfl⟩ := eq_bare_of_reading hr
    obtain ⟨hcanonical, hbrackets, rfl⟩ := (h.reads_iff hc).mp hr
    exact ⟨hcanonical, hbrackets, rfl⟩
  · rintro ⟨hcanonical, hbrackets, rfl⟩
    exact (h.reads_iff hc).mpr ⟨hcanonical, hbrackets, rfl⟩

theorem Returns.groupBy_iff (h : Returns l) :
    GroupBy reading (bare (grouped (tokensAll l) ++ tail)) l m ↔ Canonical l ∧ m = bare tail := by
  have hreading := h.reading_iff (m := m) (.group tail)
  simp only [reduceCtorEq, false_imp_iff, true_and] at hreading
  rw [grouped_append, bare_cons, ← hreading]
  exact ⟨fun ⟨h⟩ => h, .intro⟩

theorem Returns.argumentBy_iff (h : Returns l) :
    ArgumentBy reading (bare (grouped (tokensAll l) ++ tail)) l m ↔
      Canonical l ∧ m = bare tail := by
  rw [← h.groupBy_iff, grouped_append, bare_cons]
  constructor
  · rintro (h | _ | _)
    exact .intro h
  · rintro ⟨h⟩
    exact .group h

/-- A script is read behind its mark. -/
theorem Returns.scriptBy_iff (h : Returns l) {mark : Token} :
    ScriptBy reading mark (bare (mark :: grouped (tokensAll l) ++ tail)) (some l) m ↔
      Canonical l ∧ m = bare tail := by
  rw [← h.argumentBy_iff]
  constructor
  · rintro ⟨h⟩
    exact h
  · exact .present

/-- No script is read where the mark is missing. -/
theorem scriptBy_none_iff {mark : Token} :
    ScriptBy reading mark (bare ts) none m ↔ ts.head? ≠ some mark ∧ m = bare ts := by
  constructor
  · intro h
    generalize hb : bare ts = lexemes at h ⊢
    cases h with
    | absent h =>
      refine ⟨fun hh => ?_, rfl⟩
      obtain ⟨tail, rfl⟩ := List.head?_eq_some_iff.mp hh
      exact h ⟨mark, 0⟩ (by simp [← hb]) rfl
  · rintro ⟨hh, rfl⟩
    refine .absent ?_
    cases ts with
    | nil => simp
    | cons t ts =>
      rintro l hl rfl
      cases hl
      exact hh rfl

/-- An exponent is read alone unless a subscript follows. -/
theorem Returns.pairBy_exponent_iff (h : Returns l) :
    PairBy reading (bare (.superscript :: grouped (tokensAll l) ++ tail)) (some l) none m ↔
      Canonical l ∧ tail.head? ≠ some .subscript ∧ m = bare tail := by
  constructor
  · rintro (⟨h', hn⟩ | ⟨hn, h', -⟩)
    · obtain ⟨hl, rfl⟩ := h.scriptBy_iff.mp h'
      exact ⟨hl, scriptBy_none_iff.mp hn⟩
    · exact absurd rfl (scriptBy_none_iff.mp hn).1
  · rintro ⟨hl, hn⟩
    exact .exponentFirst (h.scriptBy_iff.mpr ⟨hl, rfl⟩) (scriptBy_none_iff.mpr hn)

/-- A subscript is read alone unless an exponent follows. -/
theorem Returns.pairBy_subscript_iff (h : Returns l) :
    PairBy reading (bare (.subscript :: grouped (tokensAll l) ++ tail)) none (some l) m ↔
      Canonical l ∧ tail.head? ≠ some .superscript ∧ m = bare tail := by
  constructor
  · rintro (_ | ⟨-, h', hn⟩)
    obtain ⟨hl, rfl⟩ := h.scriptBy_iff.mp h'
    exact ⟨hl, scriptBy_none_iff.mp hn⟩
  · rintro ⟨hl, hn⟩
    exact .subscriptFirst (scriptBy_none_iff.mpr ⟨by simp, rfl⟩)
      (h.scriptBy_iff.mpr ⟨hl, rfl⟩) (scriptBy_none_iff.mpr hn)

/-- A subscript and an exponent are read together, whatever follows. -/
theorem Returns.pairBy_iff {exponent subscript : List Node} (he : Returns exponent)
    (hs : Returns subscript) :
    PairBy reading (bare (.subscript :: grouped (tokensAll subscript) ++
        (.superscript :: grouped (tokensAll exponent) ++ tail))) (some exponent) (some subscript) m ↔
      (Canonical exponent ∧ Canonical subscript) ∧ m = bare tail := by
  constructor
  · rintro (⟨h, -⟩ | ⟨-, h, h'⟩)
    · cases h
    · obtain ⟨hs, rfl⟩ := hs.scriptBy_iff.mp h
      obtain ⟨he, hm⟩ := he.scriptBy_iff.mp h'
      exact ⟨⟨he, hs⟩, hm⟩
  · rintro ⟨⟨hce, hcs⟩, rfl⟩
    exact .subscriptFirst (scriptBy_none_iff.mpr ⟨by simp, rfl⟩)
      (hs.scriptBy_iff.mpr ⟨hcs, rfl⟩) (he.scriptBy_iff.mpr ⟨hce, rfl⟩)

/-! ### Leaves -/

theorem readScriptGlyphs_fst : ∃ exponent subscript,
    (readScriptGlyphs lexemes).1 = .scripts exponent subscript := by
  unfold readScriptGlyphs
  dsimp only
  split
  · exact ⟨_, _, rfl⟩
  · exact ⟨_, _, rfl⟩

/-- A character is read as a paren, an operator or a symbol, unless it is a script or a bar. -/
theorem ItemBy.char {c : Char} (h : ItemBy R finish (⟨.char c, o⟩ :: lexemes) [n] rest)
    (hs : ∀ exponent subscript, n ≠ .scripts exponent subscript)
    (hw : ∀ argument, n ≠ .wrapped .abs argument) :
    rest = lexemes ∧ (n = .paren c ∨ (∃ op, n = .binary op) ∨
      isScriptGlyph c = false ∧ n = .ofChar c) := by
  generalize hns : [n] = ns at h
  cases h with
  | scripts hl => simp at hl
  | glyphs _ h =>
    obtain ⟨exponent, subscript, hfst⟩ := @readScriptGlyphs_fst (⟨.char c, o⟩ :: lexemes)
    rw [h] at hfst
    exact absurd ((List.cons.inj hns).1.trans hfst) (hs exponent subscript)
  | bar => exact absurd (List.cons.inj hns).1 (hw _)
  | paren => exact ⟨rfl, .inl (List.cons.inj hns).1⟩
  | binary => exact ⟨rfl, .inr (.inl ⟨_, (List.cons.inj hns).1⟩)⟩
  | atom _ hg => exact ⟨rfl, .inr (.inr ⟨hg, (List.cons.inj hns).1⟩)⟩

theorem ofChar?_of_isAtomChar {c : Char} (h : isAtomChar c) : BinaryOp.ofChar? c = none := by
  have hsigns : ∀ c ∈ ['+', '-', '−', '*', '×', '·', '='], isAtomChar c = false := by
    decide +kernel
  unfold BinaryOp.ofChar?
  split <;> first | rfl | simp [hsigns] at h

theorem itemBy_atom_iff {c : Char} (hc : isAtomChar c) :
    ItemBy R finish (bare (tokens (.atom (String.singleton c)) ++ tail))
        [.atom (String.singleton c)] m ↔
      (Node.atom (String.singleton c)).Canonical ∧ m = bare tail := by
  have hcanonical : (Node.atom (String.singleton c)).Canonical ↔
      isScriptGlyph c = false ∧ Text.plain c = c := by
    constructor
    · rintro ⟨d, hd, -, h⟩
      obtain rfl := String.singleton_inj.mp hd
      exact h
    · exact fun h => ⟨c, rfl, hc, h⟩
  simp only [hcanonical, tokens, String.toList_singleton, List.map_cons, List.map_nil,
    List.cons_append, List.nil_append, bare_cons]
  constructor
  · intro h
    obtain ⟨rfl, hp | ⟨op, hb⟩ | ⟨hg, ha⟩⟩ := h.char (by simp) (by simp)
    · cases hp
    · cases hb
    · obtain hplain := String.singleton_inj.mp (Node.atom.inj ha)
      exact ⟨⟨hplain ▸ hg, hplain.symm⟩, rfl⟩
  · rintro ⟨⟨hg, hplain⟩, rfl⟩
    rw [hplain]
    exact .atom hc hg (ofChar?_of_isAtomChar hc)

theorem itemBy_binary_iff {op : BinaryOp} :
    ItemBy R finish (bare (tokens (.binary op) ++ tail)) [.binary op] m ↔ m = bare tail := by
  have hchar : ∀ {c}, BinaryOp.ofChar? c = some op →
      (ItemBy R finish (⟨.char c, 0⟩ :: bare tail) [.binary op] m ↔ m = bare tail) := by
    intro c hc
    constructor
    · exact fun h => (h.char (by simp) (by simp)).1
    · rintro rfl
      exact .binary hc
  cases op with
  | plus => exact hchar rfl
  | minus => exact hchar rfl
  | equals => exact hchar rfl
  | times =>
    have hn : Command.ofName? "times" = some .times := rfl
    rw [tokens, binaryToken, List.singleton_append, bare_cons, itemBy_command_iff hn]
    constructor
    · rintro ⟨⟩
      rfl
    · rintro rfl
      exact .times

theorem itemBy_paren_iff {c : Char} (hc : isParen c) :
    ItemBy R finish (bare (tokens (.paren c) ++ tail)) [.paren c] m ↔ m = bare tail := by
  have hchar : ∀ {c}, (c = '(' ∨ c = ')' ∨ c = '[' ∨ c = ']') →
      (ItemBy R finish (⟨.char c, 0⟩ :: bare tail) [.paren c] m ↔ m = bare tail) := by
    intro c hc
    constructor
    · exact fun h => (h.char (by simp) (by simp)).1
    · rintro rfl
      exact .paren hc
  have hcommand : ∀ {name c}, Command.ofName? name = some (.paren c) →
      (ItemBy R finish (⟨.command name, 0⟩ :: bare tail) [.paren c] m ↔ m = bare tail) := by
    intro name c hn
    rw [itemBy_command_iff hn]
    constructor
    · rintro ⟨⟩
      rfl
    · rintro rfl
      exact .paren
  obtain rfl | rfl | rfl | rfl | rfl | rfl := isParen_iff.mp hc
  · exact hchar (by simp)
  · exact hchar (by simp)
  · exact hcommand rfl
  · exact hchar (by simp)
  · exact hchar (by simp)
  · exact hcommand rfl

theorem readNameLetters_written {cs : List Char} (h : ∀ c ∈ cs, Unicode.isAlphanumeric c) :
    readNameLetters finish (bare (cs.map .char ++ .endGroup :: tail)) = .ok (cs, bare tail) := by
  induction cs with
  | nil => rfl
  | cons c cs ih =>
    have ih := ih fun c hc => h c (by simp [hc])
    simp only [List.map_cons, List.cons_append, bare_cons, readNameLetters, h c (by simp),
      ↓reduceIte, ih]
    rfl

theorem itemBy_function_iff {name : String} (hn : (Node.function name).Legible) :
    ItemBy R finish (bare (tokens (.function name) ++ tail)) [.function name] m ↔
      m = bare tail := by
  have hread : readOperatorName finish (bare (grouped (name.toList.map .char) ++ tail)) =
      .ok (.function name, bare tail) := by
    have hne : name.toList ≠ [] := by simpa using hn.1
    rw [grouped_append, bare_cons, readOperatorName, readNameLetters_written hn.2]
    simp [bind, Except.bind, hne]
  have hname : Command.ofName? "operatorname" = some .operatorName := rfl
  rw [tokens, List.cons_append, bare_cons, itemBy_command_iff hname]
  constructor
  · intro h
    cases h with
    | operatorName h =>
      rw [hread] at h
      cases h
      rfl
  · rintro rfl
    exact .operatorName hread

/-! ### Nodes with lists -/

/-- What follows a script is no other half of it. -/
def Follows : Node → List Token → Prop
  | .scripts (some _) none, tail => tail.head? ≠ some .subscript
  | .scripts none (some _), tail => tail.head? ≠ some .superscript
  | _, _ => True

theorem itemBy_scripts_iff {exponent subscript : Option (List Node)} (hmark : t = .superscript ∨
      t = .subscript) :
    ItemBy R finish (⟨t, o⟩ :: lexemes) [.scripts exponent subscript] rest ↔
      PairBy R (⟨t, o⟩ :: lexemes) exponent subscript rest := by
  constructor
  · intro h
    generalize hns : [Node.scripts exponent subscript] = ns at h
    cases h with
    | scripts _ h =>
      cases hns
      exact h
    | _ => simp at hmark
  · exact .scripts hmark

theorem itemBy_scripts_iff_canonical {exponent subscript : Option (List Node)}
    (hn : (Node.scripts exponent subscript).Legible)
    (hl : ∀ l ∈ (Node.scripts exponent subscript).lists, Returns l) :
    ItemBy reading finish (bare (tokens (.scripts exponent subscript) ++ tail))
        [.scripts exponent subscript] m ↔
      ((Node.scripts exponent subscript).Canonical ∧
        ∀ l ∈ (Node.scripts exponent subscript).lists, Canonical l) ∧
        Follows (.scripts exponent subscript) tail ∧ m = bare tail := by
  rcases exponent with _ | exponent <;> rcases subscript with _ | subscript <;>
    simp only [Node.lists, Option.toList, List.cons_append, List.nil_append,
      List.forall_mem_cons] at hl
  · exact absurd hn (by simp [Node.Legible])
  · rw [tokens, List.cons_append, bare_cons, itemBy_scripts_iff (.inr rfl), ← bare_cons,
      ← List.cons_append, hl.1.pairBy_subscript_iff]
    simp [Node.Canonical, Node.lists, Follows]
  · rw [tokens, List.cons_append, bare_cons, itemBy_scripts_iff (.inl rfl), ← bare_cons,
      ← List.cons_append, hl.1.pairBy_exponent_iff]
    simp [Node.Canonical, Node.lists, Follows]
  · rw [tokens, List.cons_append, bare_cons, itemBy_scripts_iff (.inr rfl), ← bare_cons,
      List.append_assoc, ← List.cons_append, hl.1.pairBy_iff hl.2.1]
    simp [Node.Canonical, Node.lists, Follows]

theorem itemBy_frac_iff {numerator denominator : List Node} (hl : Returns numerator)
    (hl' : Returns denominator) :
    ItemBy reading finish (bare (tokens (.frac numerator denominator) ++ tail))
        [.frac numerator denominator] m ↔
      (Canonical numerator ∧ Canonical denominator) ∧ m = bare tail := by
  have hname : Command.ofName? "frac" = some .frac := rfl
  rw [tokens, List.cons_append, bare_cons, itemBy_command_iff hname, List.append_assoc]
  constructor
  · intro h
    cases h with
    | frac h h' =>
      obtain ⟨hn, rfl⟩ := hl.groupBy_iff.mp h
      obtain ⟨hd, hm⟩ := hl'.groupBy_iff.mp h'
      exact ⟨⟨hn, hd⟩, hm⟩
  · rintro ⟨⟨hn, hd⟩, rfl⟩
    exact .frac (hl.groupBy_iff.mpr ⟨hn, rfl⟩) (hl'.groupBy_iff.mpr ⟨hd, rfl⟩)

theorem itemBy_squareRoot_iff (hl : Returns l) :
    ItemBy reading finish (bare (tokens (.radical none l) ++ tail)) [.radical none l] m ↔
      Canonical l ∧ m = bare tail := by
  have hname : Command.ofName? "sqrt" = some .sqrt := rfl
  rw [tokens, List.cons_append, bare_cons, itemBy_command_iff hname, ← hl.groupBy_iff]
  constructor
  · intro h
    cases h with
    | squareRoot h => exact h
  · exact .squareRoot

theorem itemBy_root_iff {index radicand : List Node} (hl : Returns index)
    (hl' : Returns radicand) :
    ItemBy reading finish (bare (tokens (.radical (some index) radicand) ++ tail))
        [.radical (some index) radicand] m ↔
      bracketsFrom 0 index = some 0 ∧ (Canonical index ∧ Canonical radicand) ∧ m = bare tail := by
  have hname : Command.ofName? "sqrt" = some .sqrt := rfl
  simp only [tokens, List.cons_append, List.append_assoc, bare_cons, itemBy_command_iff hname]
  constructor
  · intro h
    cases h with
    | root h h' =>
      obtain ⟨hi, hb, rfl⟩ := (hl.reading_iff (.bracket _)).mp h
      obtain ⟨hr, hm⟩ := hl'.groupBy_iff.mp h'
      exact ⟨hb rfl, ⟨hi, hr⟩, hm⟩
  · rintro ⟨hb, ⟨hi, hr⟩, rfl⟩
    exact .root ((hl.reading_iff (.bracket _)).mpr ⟨hi, fun _ => hb, rfl⟩)
      (hl'.groupBy_iff.mpr ⟨hr, rfl⟩)

theorem itemBy_wrapped_iff {wrap : Wrap} (hl : Returns l) :
    ItemBy reading finish (bare (tokens (.wrapped wrap l) ++ tail)) [.wrapped wrap l] m ↔
      Canonical l ∧ m = bare tail := by
  have hname : Command.ofName? wrap.name = some (.wrap wrap) := by
    cases wrap <;> rfl
  rw [tokens, List.cons_append, bare_cons, itemBy_command_iff hname, ← hl.groupBy_iff]
  constructor
  · intro h
    cases h with
    | wrap h => exact h
  · exact .wrap

theorem itemBy_big_iff {op : BigOp} {top bottom : List Node} (hl : Returns top)
    (hl' : Returns bottom) :
    ItemBy reading finish (bare (tokens (.big op top bottom) ++ tail)) [.big op top bottom] m ↔
      (Canonical top ∧ Canonical bottom) ∧ m = bare tail := by
  have hname : Command.ofName? (bigName op) = some (.big op) := by
    cases op <;> rfl
  rw [tokens, List.cons_append, bare_cons, itemBy_command_iff hname, List.cons_append,
    List.append_assoc, ← List.cons_append, ← hl.pairBy_iff hl']
  constructor
  · intro h
    generalize hn : some (Node.big op top bottom) = n at h
    cases h with
    | @big _ _ _ top' bottom' h =>
      obtain ⟨-, rfl, rfl⟩ := Node.big.inj (Option.some.inj hn)
      -- Both marks are there, so both limits are.
      cases h with
      | exponentFirst h => cases h
      | subscriptFirst hn h h' =>
        cases bottom' with
        | none => exact absurd rfl (scriptBy_none_iff.mp h).1
        | some bottom =>
          obtain ⟨-, rfl⟩ := hl'.scriptBy_iff.mp h
          cases top' with
          | none => exact absurd rfl (scriptBy_none_iff.mp h').1
          | some top => exact .subscriptFirst hn h h'
  · exact .big

/-- A node of legible notation is read as itself just if it is canonical and what follows is no
other half of it. -/
theorem itemBy_iff (hn : n.Legible) (hl : ∀ l ∈ n.lists, Returns l) :
    ItemBy reading 0 (bare (tokens n ++ tail)) [n] m ↔
      (n.Canonical ∧ ∀ l ∈ n.lists, Canonical l) ∧ Follows n tail ∧ m = bare tail := by
  cases n with
  | atom text =>
    obtain ⟨c, rfl, hc⟩ := hn.exists_char
    simp [itemBy_atom_iff hc, Node.lists, Follows]
  | binary => simp [itemBy_binary_iff, Node.Canonical, Node.lists, Follows]
  | function =>
    have hcanonical : (Node.function _).Canonical := hn
    simp [itemBy_function_iff hn, hcanonical, Node.lists, Follows]
  | paren =>
    have hcanonical : (Node.paren _).Canonical := hn
    simp [itemBy_paren_iff hn, hcanonical, Node.lists, Follows]
  | frac =>
    simp only [Node.lists, List.forall_mem_cons] at hl
    simp [itemBy_frac_iff hl.1 hl.2.1, Node.Canonical, Node.lists, Follows]
  | radical index radicand =>
    cases index with
    | none =>
      simp only [Node.lists, Option.toList, List.nil_append, List.forall_mem_cons] at hl
      simp [itemBy_squareRoot_iff hl.1, Node.Canonical, Node.lists, Follows]
    | some =>
      simp only [Node.lists, Option.toList, List.cons_append, List.nil_append,
        List.forall_mem_cons] at hl
      simp [itemBy_root_iff hl.1 hl.2.1, Node.Canonical, Node.lists, Follows, and_assoc]
  | scripts => exact itemBy_scripts_iff_canonical hn hl
  | wrapped =>
    simp only [Node.lists, List.forall_mem_cons] at hl
    simp [itemBy_wrapped_iff hl.1, Node.Canonical, Node.lists, Follows]
  | big =>
    simp only [Node.lists, List.forall_mem_cons] at hl
    simp [itemBy_big_iff hl.1 hl.2.1, Node.Canonical, Node.lists, Follows]

end Items

/-! ## Lists -/

/-- The end of a list follows any node. -/
theorem Closes.head? {ending : Ending} {closing after : List Token}
    (h : Closes ending closing after) :
    closing.head? ≠ some .superscript ∧ closing.head? ≠ some .subscript := by
  cases h <;> simp

theorem follows_iff {closing : List Token} (hns : EveryNode Legible ns)
    (hc : closing.head? ≠ some .superscript ∧ closing.head? ≠ some .subscript) :
    Follows n (tokensAll ns ++ closing) ↔ ∀ m ∈ ns.head?, n.Apart m := by
  cases ns with
  | nil =>
    rcases n with _ | _ | _ | _ | _ | _ | ⟨_ | _, _ | _⟩ | _ | _ <;> simp [Follows, tokensAll, hc]
  | cons next ns =>
    obtain ⟨⟨hnext, -⟩, -⟩ := Node.everyNode_cons.mp hns
    obtain ⟨t, ts, htokens, hb⟩ := exists_begins hnext
    simp only [tokensAll, htokens, List.cons_append, Option.mem_def, List.head?_cons,
      Option.some.injEq, forall_eq']
    rcases n with _ | _ | _ | _ | _ | _ | ⟨_ | _, _ | _⟩ | _ | _
    case scripts.some.none => simp [Node.apart_exponent_iff, ← hb.lowers, Follows]
    case scripts.none.some => simp [Node.apart_subscript_iff, ← hb.raises, Follows]
    all_goals simp [Follows, Node.Apart]

/-- A list closes there, unless it has brackets of its own open. -/
theorem close?_closing {ending : Ending} {openBrackets : Nat} {closing after : List Token}
    (hc : Closes ending closing after) : ending.close? openBrackets (bare closing) =
      if ending = .bracket ∧ openBrackets ≠ 0 then none else some (bare after) := by
  cases hc with
  | input => rfl
  | group => rfl
  | bracket => cases openBrackets <;> simp [Ending.close?]

/-- No node closes a list, except for a bracket that the list did not open. -/
theorem close?_begins {ending : Ending} {openBrackets : Nat} {closing after : List Token}
    (hb : Begins n t) (hc : Closes ending closing after) :
    ending.close? openBrackets (bare (t :: ts)) = none ↔
      ¬(ending = .bracket ∧ n = .paren ']' ∧ openBrackets = 0) := by
  cases hc with
  | input => simp [Ending.close?]
  | group =>
    have hne := hb.endGroup
    simp only [reduceCtorEq, false_and, not_false_eq_true, iff_true]
    cases t <;> first | rfl | exact absurd rfl hne
  | bracket =>
    rw [← hb.closes]
    by_cases ht : t = .char ']'
    · subst ht
      cases openBrackets <;> simp [Ending.close?]
    · simp only [ht, false_and, and_false, not_false_eq_true, iff_true]
      unfold Ending.close?
      split <;> simp_all

theorem bracketsAfter_of_ne {openBrackets : Nat} (hopen : t ≠ .char '[') (hclose : t ≠ .char ']') :
    bracketsAfter openBrackets (bare (t :: ts)) = openBrackets := by
  unfold bracketsAfter
  split <;> simp_all

/-- Brackets are counted by first tokens just as they are by nodes. -/
theorem bracketsFrom_cons {openBrackets : Nat} (hb : Begins n t) (ts : List Token) :
    bracketsFrom openBrackets (n :: ns) = some 0 ↔ ¬(n = .paren ']' ∧ openBrackets = 0) ∧
      bracketsFrom (bracketsAfter openBrackets (bare (t :: ts))) ns = some 0 := by
  simp only [bracketsFrom, openAfter, Node.isParenOf_iff, ← hb.opens, ← hb.closes]
  by_cases hopen : t = .char '['
  · subst hopen
    simp [bracketsAfter]
  · by_cases hclose : t = .char ']'
    · subst hclose
      simp [bracketsAfter]
    · rw [bracketsAfter_of_ne hopen hclose]
      simp [hopen, hclose]

/-- The text of legible notation is read as that notation just if it is canonical. -/
theorem returns (hns : EveryNode Legible ns) : Returns ns := by
  refine (Node.induction (P := fun n => (∀ l ∈ n.lists, EveryNode Legible l) →
    ∀ l ∈ n.lists, Returns l) (Q := fun ns => EveryNode Legible ns → Returns ns)
    ?node ?nil ?cons).2 ns hns
  case node => exact fun n ih hn l hl => ih l hl (hn l hl)
  case nil =>
    refine fun _ => ⟨fun {ending openBrackets closing after rest} hc => ?_⟩
    rw [reads_iff]
    simp only [tokensAll, List.nil_append, close?_closing hc, bracketsFrom, openAfter,
      Option.some.injEq, and_true, canonical_nil, true_and]
    constructor
    · rintro (hclose | ⟨_, first, middle, more, hi, -, hnil⟩)
      · split at hclose
        · cases hclose
        · refine ⟨fun hb => ?_, ?_⟩
          · simp_all
          · exact bare_injective (Option.some.inj hclose).symm
      · obtain ⟨rfl, -⟩ := List.append_eq_nil_iff.mp hnil.symm
        cases hc with
        | input => cases hi
        | group => cases hi
        | bracket =>
          obtain ⟨n, hn⟩ := hi.single (by simp) (by simp)
          cases hn
    · rintro ⟨hb, rfl⟩
      refine .inl (if_neg ?_)
      simp_all
  case cons =>
    intro n ns hn ihs hns
    obtain ⟨⟨hlegible, hlists⟩, hns⟩ := Node.everyNode_cons.mp hns
    obtain ⟨t, ts, htokens, hb⟩ := exists_begins hlegible
    refine ⟨fun {ending openBrackets closing after rest} hc => ?_⟩
    have htext : tokensAll (n :: ns) ++ closing = t :: (ts ++ (tokensAll ns ++ closing)) := by
      simp [tokensAll, htokens]
    have hitem : ∀ m, ItemBy reading 0 (bare (t :: (ts ++ (tokensAll ns ++ closing)))) [n] m ↔
        (n.Canonical ∧ ∀ l ∈ n.lists, Canonical l) ∧ Follows n (tokensAll ns ++ closing) ∧
          m = bare (tokensAll ns ++ closing) := by
      intro m
      rw [← List.cons_append, ← htokens]
      exact itemBy_iff hlegible (hn hlists)
    have hread : Reads ending openBrackets (t :: (ts ++ (tokensAll ns ++ closing))) (n :: ns) rest ↔
        ending.close? openBrackets (bare (t :: (ts ++ (tokensAll ns ++ closing)))) = none ∧
          ((n.Canonical ∧ ∀ l ∈ n.lists, Canonical l) ∧ Follows n (tokensAll ns ++ closing)) ∧
          Reads ending (bracketsAfter openBrackets (bare (t :: (ts ++ (tokensAll ns ++ closing)))))
            (tokensAll ns ++ closing) ns rest := by
      rw [reads_iff]
      constructor
      · rintro (⟨-, hnil⟩ | ⟨hclose, first, middle, more, hi, hm, heq⟩)
        · cases hnil
        · obtain ⟨first, rfl⟩ := hi.single hb.beginGroup hb.spacing
          obtain ⟨rfl, rfl⟩ := List.cons.inj heq
          obtain ⟨hn, hfollows, hmiddle⟩ := (hitem _).mp hi
          obtain rfl := bare_injective hmiddle
          exact ⟨hclose, ⟨hn, hfollows⟩, hm⟩
      · rintro ⟨hclose, ⟨hn, hfollows⟩, hm⟩
        exact .inr ⟨hclose, [n], _, ns, (hitem _).mpr ⟨hn, hfollows, rfl⟩, hm, rfl⟩
    rw [htext, hread, close?_begins hb hc, (ihs hns).reads_iff hc, canonical_cons,
      follows_iff hns hc.head?, bracketsFrom_cons hb]
    tauto

/-- Legible notation is read back from its text just if it is canonical. -/
theorem read_write_iff (hns : EveryNode Legible ns) :
    read (write ns) = .ok ns ↔ Canonical ns := by
  have hreads : Reads .input 0 (tokensAll ns ++ []) ns [] ↔ _ := (returns hns).reads_iff .input
  rw [read_iff, map_token_lex_write hns, ← List.append_nil (tokensAll ns), hreads]
  simp

/-- Canonical notation is read back from the text of a formula made of it. -/
theorem read_write_nodes (h : Canonical ns) :
    read (write (Formula.ofNodes ns).nodes) = .ok ns := by
  rw [Formula.nodes_ofNodes, h.uprightAll]
  exact (read_write_iff h.legible).mpr h

/-- Brackets in an index and a letter behind a control word are read back. -/
theorem read_write_nodes_root :
    Canonical [.radical (some [.paren '[', .paren ']']) [.binary .times, .atom "x"]] ∧
    read (write (Formula.ofNodes
        [.radical (some [.paren '[', .paren ']']) [.binary .times, .atom "x"]]).nodes) =
      .ok [.radical (some [.paren '[', .paren ']']) [.binary .times, .atom "x"]] := by
  have hx : (Node.atom "x").Canonical := ⟨'x', rfl, by decide +kernel⟩
  have hparens : (Node.paren '[').Canonical ∧ (Node.paren ']').Canonical := ⟨rfl, rfl⟩
  have hcanonical :
      Canonical [.radical (some [.paren '[', .paren ']']) [.binary .times, .atom "x"]] := by
    have hroot : ∀ radicand, (Node.radical (some [.paren '[', .paren ']']) radicand).Canonical :=
      fun _ => rfl
    have htimes : (Node.binary .times).Canonical := trivial
    simp [canonical_cons, canonical_nil, Node.lists, Node.Apart, hroot, htimes, hx, hparens]
  exact ⟨hcanonical, read_write_nodes hcanonical⟩

end FormulaEditor.Tex
