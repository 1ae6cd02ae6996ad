import FormulaEditor.Proofs.Expression.Level
import FormulaEditor.Proofs.Expression.Literal

/-!
# Postfixes

An exponent and an exclamation mark put a call around the operand before them. Where the operand
begins is found by reading the tokens backwards, so the calls that are already around it, and
whatever its parens hold, are read over. The tokens of an operand are read back to its first one,
and so are those of a call around them.
-/

namespace FormulaEditor

/-! ## Signs -/

theorem Text.eq_singleton_of_unitalicize {s : String} {d : Char} (hh : d ≠ 'h')
    (hd : ∀ start ∈ [italicSmall, italicCapital, italicGreek], ∀ n < 26,
      plain (Char.ofNat (start + n)) ≠ d) (h : unitalicize s = String.singleton d) :
    s = String.singleton d := by
  have hlist : s.toList.map plain = [d] := by
    simpa [unitalicize] using congrArg String.toList h
  obtain ⟨c, hs, hc⟩ : ∃ c, s.toList = [c] ∧ plain c = d := by
    simpa [List.map_eq_singleton_iff] using hlist
  apply String.toList_injective
  rw [hs, eq_of_plain_eq hh hd hc, String.toList_singleton]

/-- A symbol whose text is no sign does not read as one. -/
theorem Node.isBoundary_symbolText {text : String} (h : Frame.isBoundary text = false) :
    Frame.isBoundary (symbolText text) = false := by
  have hplain : Frame.isBoundary (Text.unitalicize text) = false := by
    refine Bool.eq_false_iff.mpr fun hsign => Bool.eq_false_iff.mp h ?_
    simp only [Frame.isBoundary, Bool.or_eq_true, beq_iff_eq] at hsign ⊢
    rcases hsign with ((hs | hs) | hs) | hs
    · exact .inl (.inl (.inl (Text.eq_singleton_of_unitalicize (d := '+') (by decide)
        (by decide +kernel) hs)))
    · exact .inl (.inl (.inr (Text.eq_singleton_of_unitalicize (d := '-') (by decide)
        (by decide +kernel) hs)))
    · exact .inl (.inr (Text.eq_singleton_of_unitalicize (d := '*') (by decide)
        (by decide +kernel) hs))
    · exact .inr (Text.eq_singleton_of_unitalicize (d := '=') (by decide) (by decide +kernel) hs)
  have hgreek : ∀ entry ∈ Symbol.greekLetters, Frame.isBoundary entry.1 = false := by
    decide +kernel
  unfold symbolText
  simp only
  split
  · rename_i c _
    cases hg : Symbol.greekIdentifier? c with
    | none => exact hplain
    | some name =>
      obtain ⟨entry, hentry, rfl⟩ := Option.map_eq_some_iff.mp hg
      exact hgreek entry (by simpa using List.mem_of_find?_eq_some hentry)
  · exact hplain

/-! ## Frames that hold one operand -/

namespace Frame

variable {frame prior : Frame} {token before after : String} {tokens : List String}
  {depth : Int} {k : Nat}

/-- What is in the frame is one operand: its parens match, and it is read back to its first
token. -/
structure Single (frame : Frame) : Prop where
  excess : frame.excess = 0
  whole : operandLength 0 frame.tokens = frame.tokens.length

theorem single_empty : Single .empty :=
  ⟨rfl, rfl⟩

/-- Text that is no sign goes on with the operand before it. -/
theorem Single.push (h : frame.Single) (hexcess : closingExcess token = 0)
    (hsign : isBoundary token = false) : (frame.push token).Single := by
  refine ⟨by rw [excess_push, h.excess, hexcess, Int.add_zero], ?_⟩
  unfold Frame.push
  split
  · exact h.whole
  · rw [operandLength, hexcess, hsign, if_neg (by simp), Int.add_zero, h.whole, List.length_cons]

/-- Behind closing parens more is read, down to the paren that opens around it. -/
theorem operandLength_add (hk : 0 < k) (h : operandLength depth tokens = tokens.length)
    (rest : List String) :
    operandLength (depth + k) (tokens ++ rest) =
      tokens.length + operandLength (depth + k + excessOf tokens) rest := by
  induction tokens generalizing depth with
  | nil => simp [excessOf]
  | cons token tokens ih =>
    rw [operandLength] at h
    split at h
    · simp at h
    · rename_i hgo
      have hdepth : 0 ≤ depth + closingExcess token := by
        by_contra hneg
        exact hgo (by simp [Int.lt_of_not_ge hneg])
      have hsum : depth + k + closingExcess token = depth + closingExcess token + k := by omega
      rw [List.cons_append, operandLength_cons_of_pos (by omega), hsum, ih (by simpa using h),
        excessOf, List.length_cons, ← Int.add_assoc, hsum]
      omega

/-- The operand with a call around it is one operand. -/
theorem Single.wrapOperand (h : frame.Single) (hbefore : closingExcess before = -1)
    (hafter : closingExcess after = 1) (hsign : isBoundary before = false) :
    (frame.wrapOperand before after).Single ∧
      (frame.wrapOperand before after).tokens = after :: frame.tokens ++ [before] := by
  have htokens : (frame.wrapOperand before after).tokens = after :: frame.tokens ++ [before] := by
    simp [Frame.wrapOperand, h.whole]
  have hinner := operandLength_add (k := 1) (by decide) h.whole [before]
  have hexcess : excessOf frame.tokens = 0 := h.excess
  refine ⟨⟨by rw [excess_wrapOperand, h.excess, hbefore, hafter]; rfl, ?_⟩, htokens⟩
  rw [htokens, List.cons_append, operandLength_cons_of_pos (by omega), hafter]
  rw [hexcess, Int.add_zero] at hinner
  have hone : operandLength (0 + (1 : Nat)) [before] = 1 := by
    simp [operandLength, hbefore, hsign]
  rw [hone] at hinner
  simpa using hinner

/-- Balanced text between parens is read over. -/
theorem operandLength_of_leads (h : Leads (String.join tokens.reverse) 0 k)
    (rest : List String) :
    operandLength (k + 1) (tokens ++ rest) = tokens.length + operandLength 1 rest := by
  induction tokens generalizing k with
  | nil =>
    obtain rfl : 0 = k := Option.some.inj h
    simp
  | cons token tokens ih =>
    rw [List.reverse_cons, String.join_append] at h
    obtain ⟨j, hj, htoken⟩ := leads_append_iff.mp h
    have hexcess : closingExcess token = (j : Int) - k :=
      closingExcess_of_leads (by simpa [String.join_cons] using htoken)
    have hsum : (k : Int) + 1 + closingExcess token = j + 1 := by omega
    rw [List.cons_append, operandLength_cons_of_pos (by omega), hsum, ih hj, List.length_cons]
    omega

/-- A balanced frame in parens goes on with the operand before it, a function name for instance. -/
theorem Single.grouped (h : prior.Single) (hframe : frame.Holds 0) :
    ((frame.onto (prior.push "(")).push ")").Single := by
  have hopen : closingExcess "(" = -1 := rfl
  have hclose : closingExcess ")" = 1 := rfl
  have hexcess := closingExcess_of_leads hframe.text
  rw [closingExcess_join] at hexcess
  have hinner := operandLength_of_leads hframe.text ("(" :: prior.tokens)
  have hbegin : operandLength 1 ("(" :: prior.tokens) = prior.tokens.length + 1 := by
    rw [operandLength, hopen, if_neg (by decide)]
    exact congrArg (· + 1) h.whole
  constructor
  · change closingExcess ")" + excessOf (frame.tokens ++ "(" :: prior.tokens) = 0
    have hprior : excessOf prior.tokens = 0 := h.excess
    rw [excessOf_append, excessOf]
    omega
  · change operandLength 0 (")" :: (frame.tokens ++ "(" :: prior.tokens)) =
      (")" :: (frame.tokens ++ "(" :: prior.tokens)).length
    rw [operandLength_cons_of_pos (by decide), hclose]
    rw [hbegin] at hinner
    simpa using hinner

end Frame

/-! ## Writing an operand -/

namespace Node

variable {o : ExprOptions} {nodes : List Node}

/-- A list that a postfix behind it takes as a whole. -/
inductive IsOperand : List Node → Prop
  /-- A number, one atom for each digit or point. -/
  | number {digits : List Node} (hne : digits ≠ [])
    (h : ∀ node ∈ digits, node.kind.isNumberPart = true) : IsOperand digits
  | symbol {text : String} (h : text ≠ "!") : IsOperand [.atom text]
  | frac (numerator denominator : List Node) : IsOperand [.frac numerator denominator]
  | radical (index : Option (List Node)) (radicand : List Node) :
    IsOperand [.radical index radicand]
  | wrapped (wrap : Wrap) (argument : List Node) : IsOperand [.wrapped wrap argument]
  /-- Two parens that belong together, and what is between them. -/
  | grouped {c d : Char} {inner : List Node} (hopen : isLeftParen c = true)
    (hclose : isLeftParen d = false)
    (hinner : (ParenMatches.of (inner.map kind)).isBalanced = true) :
    IsOperand (.paren c :: inner ++ [.paren d])
  /-- A function name with its argument in parens. -/
  | call {name : String} {c d : Char} {inner : List Node} (hopen : isLeftParen c = true)
    (hclose : isLeftParen d = false)
    (hinner : (ParenMatches.of (inner.map kind)).isBalanced = true) :
    IsOperand (.function name :: .paren c :: inner ++ [.paren d])

/-- Scripts, factorials and sums apart, orderly nodes are written as balanced text. -/
theorem EveryList.meaning_literal {node : Node} (h : EveryList Orderly nodes)
    (ho : o.CallsParenFree) (hn : node ∈ nodes) {text : Compilation}
    (hm : node.meaning o = .piece text) (hl : node.kind.isLeftParen = false)
    (hr : node.kind.isRightParen = false) :
    ∃ t, node.meaning o = literal t ∧ Frame.closingExcess t = 0 ∧ ∀ n, (text n).1.expr = t := by
  have hsteady := h.steady (o := o) node hn
  have hfit := h.fits ho node hn
  rw [hm] at hsteady hfit ⊢
  cases hsteady with
  | piece htext =>
    obtain ⟨t, ht⟩ := htext
    have hleads : Leads t 0 0 := by
      simpa [ht, Expression.pure] using (hfit 0).2 0 0 (by simp [openAfter, hl, hr])
    refine ⟨t, congrArg Meaning.piece (funext ht), ?_, fun n => by rw [ht]; rfl⟩
    simpa using Frame.closingExcess_of_leads hleads

end Node

namespace Progress

variable {o : ExprOptions} {p : Progress} {kind : Kind} {text token : String} {n : Nat}

/-- One operand is written, and nothing is open behind it. The next accumulator gets number `n`. -/
structure Operand (n : Nat) (text : String) (p : Progress) : Prop extends p.Flat text where
  single : p.root.Single
  counter : p.counter = n

theorem operand_start (n : Nat) : (start n).Operand n "" :=
  ⟨flat_start n, Frame.single_empty, rfl⟩

namespace Operand

theorem advance (h : p.Operand n text) (o : ExprOptions) (hkind : kind.isFunction = false)
    (hproduct : ∀ previous ∈ p.previous, impliesProduct previous kind = false)
    (hexcess : Frame.closingExcess token = 0) (hsign : Frame.isBoundary token = false) :
    (p.advance o kind (Node.literal token)).Operand n (text ++ token) := by
  refine ⟨(h.toFlat.advance o token hkind hproduct).1, ?_, ?_⟩
  · rw [h.toFlat.advance_eq o token hproduct]
    exact h.single.push hexcess hsign
  · rw [h.toFlat.advance_eq o token hproduct]
    exact h.counter

/-- At the end, the text is the expression. -/
theorem finish (h : p.Operand n text) : p.finish o = (.pure (o.spell text), n) := by
  have hempty : o.spell "" = "" := by
    unfold ExprOptions.spell
    split <;> rfl
  have htext : (p.finish o).1 = .pure (o.spell text) := by
    rw [h.toFlat.finish, Expression.written_eq]
    simp only [Expression.pure, hempty]
  have hcounter : (p.finish o).2 = n := by
    have hn := h.counter
    obtain ⟨⟨hsums, -, -, -⟩, -, -⟩ := h
    obtain ⟨previous, root, sums, implicit, counter⟩ := p
    obtain rfl : sums = [] := hsums
    exact hn
  exact Prod.ext htext hcounter

/-- Digits and points are written one after the other. -/
theorem writeAll_number {nodes : List Node} (h : p.Operand n text)
    (hnumber : ∀ node ∈ nodes, node.kind.isNumberPart = true)
    (hnamed : ∀ node ∈ nodes, node.Named) : ∃ text, (Node.writeAll o nodes p).Operand n text := by
  induction nodes generalizing p text with
  | nil => exact ⟨text, h⟩
  | cons node nodes ih =>
    obtain ⟨hnode, hrest⟩ := List.forall_mem_cons.mp hnumber
    obtain ⟨hname, hnames⟩ := List.forall_mem_cons.mp hnamed
    cases node <;> simp only [Node.kind, Kind.isNumberPart, Bool.false_eq_true] at hnode
    rename_i symbol
    have hbang : (Text.unitalicize symbol == "!") = false := by
      refine Bool.eq_false_iff.mpr fun hbang => ?_
      rw [beq_iff_eq.mp hbang] at hnode
      exact absurd hnode (by decide +kernel)
    have hmeaning : (Node.atom symbol).meaning o = Node.literal (Node.symbolText symbol) := by
      rw [Node.meaning, hbang, if_neg (by decide)]
    have hproduct : ∀ previous ∈ p.previous,
        impliesProduct previous (Node.atom symbol).kind = false := fun previous _ => by
      simp [impliesProduct, Node.kind, Kind.isNumberPart, hnode]
    rw [Node.writeAll, hmeaning]
    exact ih (h.advance o rfl hproduct
      (Frame.closingExcess_of_parenFree (parenFree_symbolText hname.1))
      (Node.isBoundary_symbolText hname.2)) hrest hnames

/-- A list in parens is written behind nothing, or behind the name of a function. -/
theorem writeAll_grouped {prior : Frame} {c d : Char} {inner : List Node}
    (hopen : isLeftParen c = true) (hclose : isLeftParen d = false)
    (h : Node.EveryList Node.Orderly inner) (ho : o.CallsParenFree)
    (hlast : ∀ node ∈ inner.getLast?, node.kind.isFunction = false) (hprior : prior.Single)
    (hbody : prior.body = "") :
    ∃ text, (Node.writeAll o (inner ++ [.paren d])
      ⟨some (.paren c), prior.push "(", [], 0, n⟩).Operand n text := by
  have hkind : beginsOperand (some (.paren c)) = true := by
    simp [beginsOperand, Kind.isLeftParen, hopen]
  obtain ⟨hlevel, after, hafter, hwrite⟩ := h.writeAll_behind ho
    (Frame.endsOperand_push_paren prior) hkind n
  obtain ⟨hholds, hempty, hcounter⟩ := hlevel.close (o := o)
  have hfunction : after.any Kind.isFunction = false :=
    hafter.isFunction.trans (Node.isFunction_writeAll rfl hlast)
  have hends : ((Node.writeAll o inner (start n)).onto (prior.push "(") after).advance o
      (Node.paren d).kind ((Node.paren d).meaning o) =
      ⟨some (.paren d), (((Node.writeAll o inner (start n)).close o).root.onto
        (prior.push "(")).push ")", [], 0, n⟩ := by
    have hmeaning : (Node.paren d).meaning o = Node.literal ")" := by simp [Node.meaning, hclose]
    have hcloses : (Node.paren d).kind.endsArgument = true := by
      simp [Node.kind, Kind.endsArgument, Kind.isRightParen, hclose]
    rw [hmeaning, advance_of_endsArgument (p := Progress.onto _ _ after) hcloses hfunction
      hlevel.rooted.depths, close_onto]
    simp only [onto, hcounter, Node.kind]
  rw [writeAll_append, hwrite, Node.writeAll, Node.writeAll, hends]
  refine ⟨(((Node.writeAll o inner (start n)).close o).root.onto (prior.push "(")).push ")"
    |>.finish.expr, ⟨rfl, rfl, ?_, ?_⟩, hprior.grouped hholds, rfl⟩
  · simp [Frame.finish, Expression.pure, Frame.onto, hempty, hbody]
  · rintro _ ⟨⟩
    rfl

/-- One node with a text of its own is written as that text. -/
theorem writeAll_piece {node : Node} (hm : node.meaning o = Node.literal token)
    (hkind : node.kind.isFunction = false) (hexcess : Frame.closingExcess token = 0)
    (hsign : Frame.isBoundary token = false) :
    (Node.writeAll o [node] (start n)).Operand n token := by
  have hstep : ((start n).advance o node.kind (Node.literal token)).Operand n ("" ++ token) :=
    (operand_start n).advance o hkind (by simp [start]) hexcess hsign
  rwa [String.empty_append, ← hm] at hstep

end Operand

end Progress

/-- What is between two parens is orderly if they belong together. -/
theorem Node.EveryList.inner (before : List Node) {inner : List Node} {c d : Char}
    (h : EveryList Orderly (before ++ .paren c :: inner ++ [.paren d]))
    (hclose : isLeftParen d = false)
    (hinner : (ParenMatches.of (inner.map kind)).isBalanced = true) :
    EveryList Orderly inner ∧ ∀ node ∈ inner.getLast?, node.kind.isFunction = false := by
  have hmem : ∀ node ∈ inner, node ∈ before ++ .paren c :: inner ++ [.paren d] := fun node hn => by
    simp [hn]
  have hchain := h.here.apart
  rw [List.append_assoc, List.isChain_append] at hchain
  have htail : (inner ++ [paren d]).IsChain _ := (List.isChain_cons.mp hchain.2.1).2
  rw [List.isChain_append] at htail
  refine ⟨.intro ⟨hinner, htail.1, fun node hn => h.here.named node (hmem node hn),
    fun node hn => h.here.sumFree node (hmem node hn)⟩
    fun node hn l hl => h.inside (hmem node hn) hl, fun node hn => ?_⟩
  have hright : (paren d).kind.isRightParen = true := by simp [kind, Kind.isRightParen, hclose]
  simpa [hright] using htail.2.2 node hn (paren d) rfl

namespace Progress

variable {o : ExprOptions} {n : Nat}

theorem writeAll_operand {operand : List Node} (ho : o.CallsParenFree)
    (hoperand : Node.IsOperand operand) (h : Node.EveryList Node.Orderly operand) :
    ∃ text, (Node.writeAll o operand (start n)).Operand n text := by
  -- Layouts have a paren in their text, so it is no sign.
  have hlayout : ∀ {node : Node} {c : Compilation}, operand = [node] → node.meaning o = .piece c →
      node.kind.isLeftParen = false → node.kind.isRightParen = false →
      node.kind.isFunction = false → '(' ∈ (c 0).1.expr.toList →
      ∃ text, (Node.writeAll o operand (start n)).Operand n text := by
    rintro node c rfl hm hl hr hf hparen
    obtain ⟨t, ht, hexcess, hexpr⟩ := h.meaning_literal ho List.mem_cons_self hm hl hr
    rw [hexpr 0] at hparen
    exact ⟨t, Operand.writeAll_piece ht hf hexcess
      (Frame.isBoundary_of_not_parenFree (not_parenFree_of_mem hparen))⟩
  cases hoperand with
  | number hne hnumber => exact (operand_start n).writeAll_number hnumber h.here.named
  | @symbol text hbang =>
    have hname : Node.Named (.atom text) := h.here.named _ List.mem_cons_self
    have hplain : Text.unitalicize text ≠ "!" := fun hplain =>
      hbang (Text.eq_singleton_of_unitalicize (d := '!') (by decide) (by decide +kernel) hplain)
    refine ⟨Node.symbolText text, Operand.writeAll_piece ?_ rfl
      (Frame.closingExcess_of_parenFree (parenFree_symbolText hname.1))
      (Node.isBoundary_symbolText hname.2)⟩
    rw [Node.meaning, if_neg (by simpa using hplain)]
  | frac numerator denominator =>
    exact hlayout rfl (by rw [Node.meaning]) rfl rfl rfl (by simp [Node.quotient])
  | radical index radicand =>
    cases index with
    | none => exact hlayout rfl (by rw [Node.meaning]) rfl rfl rfl (by simp [Node.squareRoot])
    | some index => exact hlayout rfl (by rw [Node.meaning]) rfl rfl rfl (by simp [Node.indexedRoot])
  | wrapped wrap argument =>
    exact hlayout rfl (by rw [Node.meaning]) rfl rfl rfl (by simp [Node.call])
  | @grouped c d inner hopen hclose hinner =>
    obtain ⟨horderly, hlast⟩ := Node.EveryList.inner [] h hclose hinner
    have hmeaning : (Node.paren c).meaning o = Node.literal "(" := by simp [Node.meaning, hopen]
    have hbegin : (start n).advance o (Node.paren c).kind ((Node.paren c).meaning o) =
        ⟨some (.paren c), Frame.empty.push "(", [], 0, n⟩ := by
      rw [hmeaning, (flat_start n).advance_eq o "(" (by simp [start])]
      rfl
    rw [List.cons_append, Node.writeAll, hbegin]
    exact Operand.writeAll_grouped hopen hclose horderly ho hlast Frame.single_empty rfl
  | @call name c d inner hopen hclose hinner =>
    obtain ⟨horderly, hlast⟩ := Node.EveryList.inner [.function name] h hclose hinner
    have hname : Node.Named (.function name) := h.here.named _ List.mem_cons_self
    have hbegin : (start n).advance o (Node.function name).kind ((Node.function name).meaning o) =
        ⟨some (.function name), Frame.empty.push name, [], 0, n⟩ := by
      rw [Node.meaning, (flat_start n).advance_eq o name (by simp [start])]
      rfl
    rw [List.cons_append, List.cons_append, Node.writeAll, hbegin, Node.writeAll,
      advance_leftParen hopen]
    exact Operand.writeAll_grouped hopen hclose horderly ho hlast
      (Frame.single_empty.push (Frame.closingExcess_of_parenFree hname.1) hname.2) Frame.body_push

end Progress

/-! ## Calls around an operand -/

namespace ExprOptions

variable {o : ExprOptions} {s : String}

theorem spell_spell : o.spell (o.spell s) = o.spell s := by
  unfold spell
  split
  · exact Text.promoteIntegers_promoteIntegers s
  · rfl

theorem spell_append_separator (h : Text.isSeparator s = true) (before : String) :
    o.spell (before ++ s) = o.spell before ++ s := by
  unfold spell
  split
  · exact Text.promoteIntegers_append_separator h before
  · rfl

end ExprOptions

/-- What stands behind its operand. -/
inductive Postfix
  /-- An exponent. A subscript beside it is not written. -/
  | power (exponent : List Node) (subscript : Option (List Node))
  | factorial

namespace Postfix

/-- The notation of the postfix. -/
def node : Postfix → Node
  | power exponent subscript => .scripts (some exponent) subscript
  | factorial => .atom "!"

/-- The exponent of a power. -/
def exponent? : Postfix → Option (List Node)
  | power exponent _ => some exponent
  | factorial => none

/-- The call around an operand: a name and a paren in front. -/
def before (o : ExprOptions) : Postfix → String
  | power _ _ => o.powerFunction ++ "("
  | factorial => o.factorialFunction ++ "("

/-- The call around an operand: what is behind it. -/
def behind (o : ExprOptions) : Postfix → String
  | power exponent _ => ", (" ++ (Node.compile o exponent 0).1.expr ++ "))"
  | factorial => ")"

/-- The expression of an operand with the postfix behind it. -/
def around (o : ExprOptions) (operand : String) : Postfix → String
  | power exponent _ => o.spell o.powerFunction ++ "(" ++ operand ++ ", (" ++
      (Node.compile o exponent 0).1.expr ++ "))"
  | factorial => o.spell o.factorialFunction ++ "(" ++ operand ++ ")"

variable {o : ExprOptions} {text : String} {call : Postfix}

theorem spell_around :
    o.spell (call.before o ++ text ++ call.behind o) = call.around o (o.spell text) := by
  have hopen : Text.isSeparator "(" = true := by decide +kernel
  have hcomma : Text.isSeparator ", (" = true := by decide +kernel
  have hclose : Text.isSeparator "))" = true := by decide +kernel
  have hone : Text.isSeparator ")" = true := by decide +kernel
  cases call with
  | power exponent subscript =>
    have hexponent : o.spell (Node.compile o exponent 0).1.expr =
        (Node.compile o exponent 0).1.expr := by
      rw [Node.compile_eq, Expression.written_eq]
      exact ExprOptions.spell_spell
    rw [before, behind, around, ← String.append_assoc, ExprOptions.spell_append_separator hclose,
      ← String.append_assoc, ExprOptions.spell_separator hcomma, hexponent,
      ExprOptions.spell_separator hopen]
  | factorial =>
    rw [before, behind, around, ExprOptions.spell_append_separator hone,
      ExprOptions.spell_separator hopen]

end Postfix

namespace Progress

variable {o : ExprOptions} {p : Progress} {text : String} {call : Postfix} {n : Nat}

/-- An exponent or exclamation mark puts a call into the root and does nothing else. -/
theorem Operand.advance_call (h : p.Operand n text)
    (hexponent : ∀ e ∈ call.exponent?, Node.EveryList Node.Orderly e) :
    p.advance o call.node.kind (call.node.meaning o) =
      { p with
        root := p.root.wrapOperand (call.before o) (call.behind o)
        previous := some call.node.kind } := by
  have hbang : Text.unitalicize "!" = "!" := by decide +kernel
  have hlog : p.afterLog = false := by
    rw [afterLog, Option.any_eq_false]
    exact fun previous hp => by simp [h.previous previous hp]
  have hseparate : p.separate call.node.kind = p := by
    have hnone : ∀ previous, impliesProduct previous call.node.kind = false := by
      cases call <;>
        simp [impliesProduct, Postfix.node, Node.kind, Kind.isScripts, Kind.isAtomNamed, hbang]
    rw [separate, if_neg]
    cases p.previous <;> simp [hnone]
  obtain ⟨_, _, _, hafter, -⟩ | ⟨-, heq⟩ := advance_eq o p call.node
  · rw [hlog] at hafter
    cases hafter
  · rw [heq, hseparate, h.adjustImplicit_eq]
    have hsums := h.sums
    obtain ⟨previous, root, sums, implicit, counter⟩ := p
    obtain rfl : sums = [] := hsums
    cases call with
    | factorial =>
      have hmeaning : Postfix.factorial.node.meaning o = .bang := by
        rw [Postfix.node, Node.meaning, hbang]
        rfl
      rw [hmeaning]
      rfl
    | power exponent subscript =>
      obtain ⟨s, hs⟩ := (hexponent exponent rfl).sumFree.steady (o := o)
      have hmeaning : ∃ base, (Postfix.power exponent subscript).node.meaning o =
          .scripts (some (Node.compile o exponent)) base := by
        cases subscript <;> exact ⟨_, by rw [Postfix.node, Node.meaning]; rfl⟩
      obtain ⟨base, hmeaning⟩ := hmeaning
      rw [hmeaning, apply, raise_eq]
      simp [hs, modifyFrame, Frame.pushBody, Frame.wrapOperand, Expression.pure, Postfix.before,
        Postfix.behind]

/-- The call goes around all that is written. -/
theorem Operand.advance_around (h : p.Operand n text) (ho : o.CallsParenFree)
    (hexponent : ∀ e ∈ call.exponent?, Node.EveryList Node.Orderly e) :
    (p.advance o call.node.kind (call.node.meaning o)).Operand n
      (call.before o ++ text ++ call.behind o) := by
  have hbefore : Frame.closingExcess (call.before o) = -1 := by
    have hopen : Frame.closingExcess "(" = -1 := rfl
    cases call with
    | power => simp [Postfix.before, hopen, Frame.closingExcess_of_parenFree ho.power]
    | factorial => simp [Postfix.before, hopen, Frame.closingExcess_of_parenFree ho.factorial]
  have hbehind : Frame.closingExcess (call.behind o) = 1 := by
    have hclose : Frame.closingExcess ", (" = -1 ∧ Frame.closingExcess "))" = 2 := ⟨rfl, rfl⟩
    cases call with
    | power exponent subscript =>
      have htext := Frame.closingExcess_of_leads (((hexponent exponent rfl).even ho 0).expr.leads 0)
      simp [Postfix.behind, hclose, htext]
    | factorial =>
      rw [Postfix.behind]
      rfl
  have hsign : Frame.isBoundary (call.before o) = false :=
    Frame.isBoundary_of_not_parenFree
      (not_parenFree_of_mem (by cases call <;> simp [Postfix.before]))
  obtain ⟨hsingle, htokens⟩ := h.single.wrapOperand hbefore hbehind hsign
  obtain ⟨hbody, hexpr⟩ : p.root.body = "" ∧ String.join p.root.tokens.reverse = text := by
    simpa [Frame.finish, Expression.pure] using h.root
  rw [h.advance_call hexponent]
  refine ⟨⟨h.sums, h.implicit, ?_, ?_⟩, hsingle, h.counter⟩
  · have hwrapped : (p.root.wrapOperand (call.before o) (call.behind o)).body = "" := hbody
    simp [Frame.finish, Expression.pure, hwrapped, htokens, String.join_append, hexpr,
      String.append_assoc]
  · rintro _ ⟨⟩
    cases call <;> rfl

/-- Every further call goes around all that is written before it. -/
theorem Operand.writeAll_calls {calls : List Postfix} (h : p.Operand n text)
    (ho : o.CallsParenFree)
    (hexponents : ∀ call ∈ calls, ∀ e ∈ call.exponent?, Node.EveryList Node.Orderly e) :
    ∃ text', (Node.writeAll o (calls.map Postfix.node) p).Operand n text' ∧
      o.spell text' = calls.foldl (fun text call => call.around o text) (o.spell text) := by
  induction calls generalizing p text with
  | nil => exact ⟨text, h, rfl⟩
  | cons call calls ih =>
    obtain ⟨hcall, hrest⟩ := List.forall_mem_cons.mp hexponents
    obtain ⟨text', htext, hspell⟩ := ih (h.advance_around ho hcall) hrest
    exact ⟨text', htext, by rw [hspell, Postfix.spell_around, List.foldl_cons]⟩

end Progress

namespace Node

variable {o : ExprOptions} {operand : List Node} {calls : List Postfix}

/-- Exponents and exclamation marks behind an operand put their calls around it, each around all
that is before it, and depend on no statements. -/
theorem compile_calls (ho : o.CallsParenFree) (hoperand : IsOperand operand)
    (h : EveryList Orderly operand)
    (hexponents : ∀ call ∈ calls, ∀ e ∈ call.exponent?, EveryList Orderly e) (n : Nat) :
    compile o (operand ++ calls.map Postfix.node) n =
      (.pure (calls.foldl (fun text call => call.around o text) (compile o operand 0).1.expr), n) := by
  obtain ⟨text, htext⟩ := Progress.writeAll_operand (n := n) ho hoperand h
  obtain ⟨text', hcalls, hspell⟩ := htext.writeAll_calls ho hexponents
  have hoperand : (compile o operand n).1.expr = o.spell text := by
    rw [compile, htext.finish]
    rfl
  obtain ⟨s, hs⟩ := h.sumFree.steady (o := o)
  rw [hs] at hoperand
  rw [compile, Progress.writeAll_append, hcalls.finish, hspell, ← hoperand, hs]

/-- A call with parens of its own and a logarithm inside: f(a(+)log_2 b−)^{sin x}!^{1/2}. -/
theorem compile_calls_behind_call :
    ExprOptions.standard.CallsParenFree ∧
      IsOperand [.function "f", .paren '(', .atom "a", .paren '[', .binary .plus, .paren ')',
        .function "log", .scripts none (some [.atom "2"]), .atom "b", .binary .minus, .paren ']'] ∧
      EveryList Orderly [.function "f", .paren '(', .atom "a", .paren '[', .binary .plus, .paren ')',
        .function "log", .scripts none (some [.atom "2"]), .atom "b", .binary .minus, .paren ']'] ∧
      EveryList Orderly [.function "sin", .atom "x"] ∧
      EveryList Orderly [.frac [.atom "1"] [.atom "2"]] ∧
      compile .standard ([.function "f", .paren '(', .atom "a", .paren '[', .binary .plus, .paren ')',
          .function "log", .scripts none (some [.atom "2"]), .atom "b", .binary .minus, .paren ']'] ++
          [Postfix.power [.function "sin", .atom "x"] none, .factorial,
            .power [.frac [.atom "1"] [.atom "2"]] none].map Postfix.node) 7 =
        (.pure "mypow(factorial(mypow(f(a*(+)*log_base(2.0,b)-), (sin(x)))), ((1.0)/(2.0)))", 7) := by
  have hnames : ExprOptions.standard.CallsParenFree := ⟨by decide, by decide, by decide⟩
  have hleaf : ∀ digit, digit = "1" ∨ digit = "2" → EveryList Orderly [.atom digit] := by
    rintro digit (rfl | rfl) <;> exact .of_leaves ⟨rfl, by decide, by decide, by decide⟩ (by simp [lists])
  have hcall : IsOperand [.function "f", .paren '(', .atom "a", .paren '[', .binary .plus,
      .paren ')', .function "log", .scripts none (some [.atom "2"]), .atom "b", .binary .minus,
      .paren ']'] :=
    (.call rfl rfl rfl : IsOperand (.function "f" :: .paren '(' :: [.atom "a", .paren '[',
      .binary .plus, .paren ')', .function "log", .scripts none (some [.atom "2"]), .atom "b",
      .binary .minus] ++ [.paren ']']))
  have hoperand : EveryList Orderly [.function "f", .paren '(', .atom "a", .paren '[',
      .binary .plus, .paren ')', .function "log", .scripts none (some [.atom "2"]), .atom "b",
      .binary .minus, .paren ']'] := by
    refine .intro ⟨rfl, by decide, by decide, by decide⟩ ?_
    simpa [lists] using hleaf "2" (.inr rfl)
  have hsine : EveryList Orderly [.function "sin", .atom "x"] :=
    .of_leaves ⟨rfl, by decide, by decide, by decide⟩ (by simp [lists])
  have hfrac : EveryList Orderly [.frac [.atom "1"] [.atom "2"]] := by
    refine .intro ⟨rfl, by decide, by decide, by decide⟩ ?_
    simpa [lists] using ⟨hleaf "1" (.inl rfl), hleaf "2" (.inr rfl)⟩
  refine ⟨hnames, hcall, hoperand, hsine, hfrac, (compile_calls hnames hcall hoperand ?_ 7).trans ?_⟩
  · simpa [Postfix.exponent?] using ⟨hsine, hfrac⟩
  · decide +kernel

/-- The name of a call is promoted with the rest of the expression, and a postfix takes the last
group only where the parens around the list do not belong together. -/
theorem not_compile_calls_verbatim :
    (¬∀ (o : ExprOptions) (operand exponent : List Node) (n : Nat), o.CallsParenFree →
      IsOperand operand → EveryList Orderly operand → EveryList Orderly exponent →
      (compile o (operand ++ [.scripts (some exponent) none]) n).1.expr = o.powerFunction ++ "(" ++
        (compile o operand n).1.expr ++ ", (" ++ (compile o exponent n).1.expr ++ "))") ∧
    ¬∀ (o : ExprOptions) (inner : List Node) (n : Nat), o.CallsParenFree →
      EveryList Orderly (.paren '(' :: inner ++ [.paren ')']) →
      (compile o (.paren '(' :: inner ++ [.paren ')'] ++ [.atom "!"]) n).1.expr =
        o.spell o.factorialFunction ++ "(" ++
          (compile o (.paren '(' :: inner ++ [.paren ')']) n).1.expr ++ ")" := by
  constructor
  · intro h
    have hatom : ∀ text, text = "x" ∨ text = "n" → EveryList Orderly [.atom text] := by
      rintro text (rfl | rfl) <;>
        exact .of_leaves ⟨rfl, by decide, by decide, by decide⟩ (by simp [lists])
    have htwo := h { ExprOptions.standard with powerFunction := "2" } [.atom "x"] [.atom "n"] 0
      ⟨by decide, by decide, by decide⟩ (.symbol (by decide)) (hatom "x" (.inl rfl))
      (hatom "n" (.inr rfl))
    revert htwo
    decide +kernel
  · intro h
    have hgroups := h .standard [.paren ')', .paren '('] 0 ⟨by decide, by decide, by decide⟩
      (.of_leaves ⟨rfl, by decide, by decide, by decide⟩ (by simp [lists]))
    revert hgroups
    decide +kernel

end Node

end FormulaEditor
