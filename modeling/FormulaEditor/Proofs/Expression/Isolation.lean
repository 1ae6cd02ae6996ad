import FormulaEditor.Proofs.Expression.Excess

/-!
# Expressions side by side

Text that is written behind an operator, or behind an opening paren, comes out as it does by itself,
with the earlier text in front of it. Only calls put around the last operand look back at what is
written, and they never look past that operator or paren. An operator outside all parens also
finishes what is before it, so it stands between two expressions of their own.
-/

namespace FormulaEditor

namespace Frame

variable {frame base : Frame} {token before after : String} {body : String}

/-- The frame with another one's contents in front. -/
def onto (frame base : Frame) : Frame :=
  ⟨base.body ++ frame.body, frame.tokens ++ base.tokens⟩

/-- What is in the frame ends every operand behind it. -/
def EndsOperand (frame : Frame) : Prop :=
  ∀ depth ≤ 0, operandLength depth frame.tokens = 0

theorem empty_onto : empty.onto base = base := by
  simp [onto, empty]

theorem push_onto : (frame.onto base).push token = (frame.push token).onto base := by
  unfold push
  split <;> rfl

theorem pushBody_onto : (frame.onto base).pushBody body = (frame.pushBody body).onto base := by
  simp [pushBody, onto, String.append_assoc]

theorem add_onto {e : Expression} : (frame.onto base).add e = (frame.add e).onto base := by
  rw [add, pushBody_onto, push_onto]
  rfl

theorem pop_onto (h : frame.tokens ≠ []) : (frame.onto base).pop = frame.pop.onto base := by
  simp [pop, onto, List.tail_append_of_ne_nil h]

theorem operandLength_le (depth : Int) (tokens : List String) :
    operandLength depth tokens ≤ tokens.length := by
  induction tokens generalizing depth with
  | nil => exact Nat.le_refl 0
  | cons token tokens ih =>
    simp only [operandLength]
    split
    · exact Nat.zero_le _
    · exact Nat.succ_le_succ (ih _)

theorem wrapOperand_onto (hbase : base.EndsOperand) (h : frame.excess ≤ 0) :
    (frame.onto base).wrapOperand before after = (frame.wrapOperand before after).onto base := by
  -- The last operand does not reach into what is in front, so the call goes around the same tokens.
  have hlength : operandLength 0 (frame.tokens ++ base.tokens) = operandLength 0 frame.tokens :=
    operandLength_append hbase (by rwa [Int.zero_add])
  have hle := operandLength_le 0 frame.tokens
  simp only [wrapOperand, onto, hlength, List.take_append_of_le_length hle,
    List.drop_append_of_le_length hle, List.cons_append, List.append_assoc]

theorem finish_onto : (frame.onto base).finish =
    ⟨base.finish.body ++ frame.finish.body, base.finish.expr ++ frame.finish.expr⟩ := by
  simp [finish, onto, String.join_append]

/-- An operator ends the operand behind it. -/
theorem endsOperand_push_symbol (frame : Frame) (op : BinaryOp) : (frame.push op.symbol).EndsOperand := by
  intro depth hdepth
  have hexcess : closingExcess op.symbol = 0 := closingExcess_of_parenFree (parenFree_symbol op)
  have hboundary : isBoundary op.symbol = true := by
    cases op <;> rfl
  have hpush : (frame.push op.symbol).tokens = op.symbol :: frame.tokens := by
    cases op <;> rfl
  rw [hpush, operandLength, hexcess, hboundary, Int.add_zero, if_pos]
  simp only [Bool.and_true, Bool.or_eq_true, decide_eq_true_eq]
  omega

/-- An opening paren ends the operand behind it. -/
theorem endsOperand_push_paren (frame : Frame) : (frame.push "(").EndsOperand := by
  intro depth hdepth
  have hexcess : closingExcess "(" = -1 := rfl
  change operandLength depth ("(" :: frame.tokens) = 0
  rw [operandLength, hexcess, if_pos]
  simp only [Bool.or_eq_true, decide_eq_true_eq]
  omega

end Frame

namespace Progress

variable {o : ExprOptions} {p : Progress} {base : Frame} {before : Option Kind} {node : Node}
  {nodes : List Node} {kind : Kind} {meaning : Meaning} {change : Frame → Frame} {k j : Nat}

/-- The expression with other text in front, and another node before. -/
def onto (p : Progress) (base : Frame) (before : Option Kind) : Progress :=
  { p with root := p.root.onto base, previous := before }

/-- Whether an operand begins behind the node before: there is none, or an operator or an opening
paren. -/
def beginsOperand (previous : Option Kind) : Bool :=
  previous.all fun kind => kind.isBinary || kind.isLeftParen

/-- The node before matters in the same way. -/
def Agree (before previous : Option Kind) : Prop :=
  before = previous ∨ beginsOperand before = true ∧ beginsOperand previous = true

/-! ## What is read of the node before -/

theorem impliesProduct_of_beginsOperand (h : beginsOperand before = true) :
    before.any (impliesProduct · kind) = false := by
  cases before with
  | none => rfl
  | some previous =>
    rcases (Bool.or_eq_true _ _).mp h with h | h <;> simp [impliesProduct, h]

theorem isFunction_of_beginsOperand (h : beginsOperand before = true) :
    before.any Kind.isFunction = false := by
  cases before with
  | none => rfl
  | some previous =>
    cases previous <;> first | rfl | exact nomatch h

theorem Agree.impliesProduct (h : Agree before p.previous) :
    before.any (impliesProduct · kind) = p.previous.any (impliesProduct · kind) := by
  obtain rfl | ⟨hb, hp⟩ := h
  · rfl
  · rw [impliesProduct_of_beginsOperand hb, impliesProduct_of_beginsOperand hp]

theorem Agree.isFunction (h : Agree before p.previous) :
    before.any Kind.isFunction = p.previous.any Kind.isFunction := by
  obtain rfl | ⟨hb, hp⟩ := h
  · rfl
  · rw [isFunction_of_beginsOperand hb, isFunction_of_beginsOperand hp]

theorem Agree.afterLog (h : Agree before p.previous) :
    (p.onto base before).afterLog = p.afterLog := by
  have hnone : ∀ {previous : Option Kind}, beginsOperand previous = true →
      previous.any (fun kind => kind.isFunction && kind.text? == some "log") = false := by
    intro previous hprevious
    have hfunction := isFunction_of_beginsOperand hprevious
    cases previous with
    | none => rfl
    | some kind => simp_all
  obtain rfl | ⟨hb, hp⟩ := h
  · rfl
  · exact (hnone hb).trans (hnone hp).symm

/-! ## In front of the root -/

theorem modifyFrame_onto (h : p.sums = [] → change (p.root.onto base) = (change p.root).onto base) :
    (p.onto base before).modifyFrame change = (p.modifyFrame change).onto base before := by
  obtain ⟨_, _, _ | _, _, _⟩ := p
  · simp only [modifyFrame, onto, h rfl]
  · rfl

theorem push_onto {token : String} :
    (p.onto base before).push token = (p.push token).onto base before :=
  modifyFrame_onto fun _ => Frame.push_onto

theorem add_onto {e : Expression} : (p.onto base before).add e = (p.add e).onto base before :=
  modifyFrame_onto fun _ => Frame.add_onto

theorem separate_onto (h : Agree before p.previous) :
    (p.onto base before).separate kind = (p.separate kind).onto base before := by
  have hprevious : (p.onto base before).previous = before := rfl
  unfold separate
  rw [hprevious, h.impliesProduct]
  split
  · exact push_onto
  · rfl

theorem adjustImplicit_onto (h : Agree before p.previous) :
    (p.onto base before).adjustImplicit kind = (p.adjustImplicit kind).onto base before := by
  have hprevious : (p.onto base before).previous = before := rfl
  have himplicit : (p.onto base before).implicit = p.implicit := rfl
  unfold adjustImplicit closeImplicit
  rw [hprevious, h.isFunction, himplicit, push_onto, push_onto]
  split
  · rfl
  · split <;> rfl

theorem settle_onto {balancedOnly : Bool} {e : Expression} {root : Frame} {counter : Nat}
    {sums : List OpenSum} :
    settle o balancedOnly e (root.onto base) counter sums =
      ((settle o balancedOnly e root counter sums).1,
        (settle o balancedOnly e root counter sums).2.1.onto base,
        (settle o balancedOnly e root counter sums).2.2) := by
  induction sums generalizing e counter with
  | nil => simp only [settle, Frame.add_onto]
  | cons s rest ih =>
    simp only [settle_cons]
    split
    · rfl
    · exact ih

theorem closeSums_onto {balancedOnly : Bool} :
    (p.onto base before).closeSums o balancedOnly =
      (p.closeSums o balancedOnly).onto base before := by
  unfold closeSums
  simp only [onto, settle_onto]

theorem close_onto : (p.onto base before).close o = (p.close o).onto base before := by
  have himplicit : (p.onto base before).implicit = p.implicit := rfl
  rw [close, himplicit, push_onto, closeSums_onto]
  rfl

theorem countParen_onto :
    (p.onto base before).countParen kind = (p.countParen kind).onto base before := by
  rw [countParen_eq, countParen_eq]
  obtain ⟨_, _, _ | ⟨s, rest⟩, _, _⟩ := p <;> rfl

theorem emit_onto {text : Compilation} :
    (p.onto base before).emit o kind text = (p.emit o kind text).onto base before := by
  have hbefore : (p.onto base before).beforeText o kind =
      (p.beforeText o kind).onto base before := by
    unfold beforeText
    split
    · exact closeSums_onto
    · rfl
  rw [emit_eq, emit_eq, hbefore, add_onto, ← countParen_onto]
  rfl

theorem takeBase_onto {text : Compilation} (hlog : p.Logged) (hafter : p.afterLog = true) :
    (p.onto base before).takeBase o text = (p.takeBase o text).onto base none := by
  have hpop : (p.onto base before).modifyFrame Frame.pop =
      (p.modifyFrame Frame.pop).onto base before := by
    refine modifyFrame_onto fun hs => Frame.pop_onto fun hnil => ?_
    obtain ⟨name, hname, -⟩ := hlog hafter
    simp [current, hs, hnil] at hname
  rw [takeBase_eq, takeBase_eq, hpop, add_onto]
  rfl

theorem apply_onto (hbase : base.EndsOperand) (h : p.root.excess ≤ 0) :
    (p.onto base before).apply o kind meaning = (p.apply o kind meaning).onto base before := by
  rcases meaning with ⟨_ | exponent, _⟩ | _ | _ | text
  · rfl
  · simp only [apply, raise_eq]
    rw [modifyFrame_onto fun _ => by rw [Frame.wrapOperand_onto hbase h, Frame.pushBody_onto]]
    rfl
  · simp only [apply]
    exact modifyFrame_onto fun _ => Frame.wrapOperand_onto hbase h
  · rfl
  · exact emit_onto

/-- A node is written the same with text in front, as long as the root closes no more than it
opens. -/
theorem advance_onto (hbase : base.EndsOperand) (hbefore : Agree before p.previous)
    (h : Rooted p.root p.implicit p.sums k) (hlog : p.Logged) :
    (p.onto base before).advance o node.kind (node.meaning o) =
      (p.advance o node.kind (node.meaning o)).onto base
        (p.advance o node.kind (node.meaning o)).previous := by
  have hseparate : Agree before (p.separate node.kind).previous := by simpa using hbefore
  simp only [advance, separate_onto hbefore, hseparate.afterLog]
  split
  · rename_i exponent text hmean hlogged
    have hkind : node.kind = .scripts := by
      have hsuits := Node.meaning_suits o node
      rwa [hmean] at hsuits
    rw [afterLog_separate] at hlogged
    rw [hkind, separate_scripts]
    exact takeBase_onto hlog hlogged
  · have hq : Rooted ((p.separate node.kind).adjustImplicit node.kind).root _ _ k :=
      rooted_adjustImplicit (by simpa using rooted_separate h)
    rw [adjustImplicit_onto hseparate, apply_onto hbase hq.excess_nonpos]
    rfl

/-- Nodes are written the same with text in front, if an operand begins behind that text. -/
theorem Continues.writeAll_onto (ho : o.ParenFree) (hbase : base.EndsOperand)
    (hbefore : Agree before p.previous) (h : p.Continues o nodes k j) :
    ∃ after, Agree after (Node.writeAll o nodes p).previous ∧
      Node.writeAll o nodes (p.onto base before) = (Node.writeAll o nodes p).onto base after := by
  -- Once a node is written, both have that node before them, and they agree for good.
  induction nodes generalizing p before k with
  | nil => exact ⟨before, hbefore, rfl⟩
  | cons node nodes ih =>
    obtain ⟨i, hi⟩ := h.advance ho
    rw [Node.writeAll, Node.writeAll, advance_onto hbase hbefore h.rooted h.logged]
    exact ih (.inl rfl) hi

/-! ## What ends an argument -/

/-- If no sum has open parens, it makes no difference that only such sums would be closed. -/
theorem settle_of_depths {balancedOnly : Bool} {e : Expression} {root : Frame} {counter : Nat}
    {sums : List OpenSum} (h : ∀ s ∈ sums, s.depth = 0) :
    settle o balancedOnly e root counter sums = settle o false e root counter sums := by
  induction sums generalizing e counter with
  | nil => rfl
  | cons s rest ih =>
    obtain ⟨hs, hrest⟩ := List.forall_mem_cons.mp h
    rw [settle_cons, settle_cons, if_neg (by simp [hs]), if_neg (by simp)]
    exact ih hrest

theorem close_of_closed {previous : Option Kind} {root : Frame} {counter : Nat} :
    close o ⟨previous, root, [], 0, counter⟩ = ⟨previous, root, [], 0, counter⟩ := by
  simp [close, closeSums, settle, push, modifyFrame, repeated, Frame.push]

/-- Where no parens are open outside, an operator or closing paren closes everything that the end of
the text would close. -/
theorem advance_of_endsArgument {text : String} (hends : kind.endsArgument = true)
    (hfunction : p.previous.any Kind.isFunction = false) (hdepths : ∀ s ∈ p.sums, s.depth = 0) :
    p.advance o kind (Node.literal text) =
      ⟨some kind, (p.close o).root.push text, [], 0, (p.close o).counter⟩ := by
  have hseparate : p.separate kind = p := by
    have hproduct : ∀ previous, impliesProduct previous kind = false := by
      intro previous
      rcases (Bool.or_eq_true _ _).mp hends with h | h <;> simp [impliesProduct, h]
    rw [separate, if_neg]
    cases p.previous <;> simp [hproduct]
  have hadjust : p.adjustImplicit kind = p.closeImplicit := by
    rw [adjustImplicit, hfunction, Bool.false_and, if_neg (by decide), if_pos hends]
  have hclose : p.closeImplicit.closeSums o true = { p.close o with implicit := 0 } := by
    have hsums : ∀ s ∈ p.closeImplicit.sums, s.depth = 0 := by
      have hdepth : p.closeImplicit.sums.map OpenSum.depth = p.sums.map OpenSum.depth :=
        depths_modifyFrame
      intro s hs
      obtain ⟨t, ht, heq⟩ := List.mem_map.mp (hdepth ▸ List.mem_map_of_mem hs)
      exact heq ▸ hdepths t ht
    rw [closeSums, settle_of_depths hsums]
    rfl
  have hsums : (p.close o).sums = [] := sums_settle
  simp only [advance, hseparate, hadjust, Node.literal, apply, emit_eq, beforeText, if_pos hends,
    hclose]
  generalize p.close o = c at hsums
  obtain ⟨_, root, sums, _, _⟩ := c
  obtain rfl : sums = [] := hsums
  simp [add, modifyFrame, countParen, Frame.add, Frame.pushBody, Expression.pure]

end Progress

section Lists

open Progress

variable {o : ExprOptions} {nodes before behind : List Node} {c : Char} {e f : Expression}

/-! ## Integers as floats -/

theorem Expression.written_blank : Expression.written o ⟨"", ""⟩ = ⟨"", ""⟩ := by
  unfold written
  split <;> rfl

/-- A sign between two expressions separates their numerals. -/
theorem Expression.written_between (hc : Text.isBreak c = true) (hbody : Blocks e.body) :
    Expression.written o ⟨e.body ++ f.body, e.expr ++ String.singleton c ++ f.expr⟩ =
      ⟨(e.written o).body ++ (f.written o).body,
        (e.written o).expr ++ String.singleton c ++ (f.written o).expr⟩ := by
  have hjoin : Text.promoteIntegers (e.body ++ f.body) =
      Text.promoteIntegers e.body ++ Text.promoteIntegers f.body := by
    have hempty : Text.promoteIntegers "" = "" := rfl
    obtain h | ⟨t, h⟩ := hbody
    · rw [h, hempty, String.empty_append, String.empty_append]
    · have hbrace : ∀ s, Text.promoteIntegers (t ++ "\x7d" ++ s) =
          Text.promoteIntegers t ++ "\x7d" ++ Text.promoteIntegers s :=
        Text.promoteIntegers_break (c := '\x7d') (by decide) t
      have hend := hbrace ""
      rw [hempty, String.append_empty, String.append_empty] at hend
      rw [h, hbrace, hend]
  unfold written
  split
  · simp only [promoteIntegers, hjoin, Text.promoteIntegers_break hc]
  · rfl

/-- A paren at either end separates the numerals between them from nothing. -/
theorem Expression.written_grouped (hbody : Blocks e.body) :
    Expression.written o ⟨e.body, "(" ++ e.expr ++ ")"⟩ =
      ⟨(e.written o).body, "(" ++ (e.written o).expr ++ ")"⟩ := by
  have hopen := written_between (o := o) (c := '(') (e := ⟨"", ""⟩) (f := ⟨e.body, e.expr ++ ")"⟩)
    (by decide) (.inl rfl)
  have hclose := written_between (o := o) (c := ')') (f := ⟨"", ""⟩) (by decide) hbody
  have hsign : String.singleton ')' = ")" := rfl
  simp only [written_blank, String.append_empty, String.empty_append, hsign] at hopen hclose
  rw [hclose] at hopen
  simpa [String.append_assoc] using hopen

theorem Frame.finish_push {frame : Frame} {token : String} :
    (frame.push token).finish = ⟨frame.finish.body, frame.finish.expr ++ token⟩ := by
  unfold push
  split
  · rename_i hempty
    obtain rfl : token = "" := by simpa using hempty
    simp [finish]
  · simp [finish, String.join_append, String.join_cons]

theorem BinaryOp.symbol_eq (op : BinaryOp) :
    ∃ c, Text.isBreak c = true ∧ op.symbol = String.singleton c := by
  cases op
  case plus => exact ⟨'+', by decide, rfl⟩
  case minus => exact ⟨'-', by decide, rfl⟩
  case times => exact ⟨'*', by decide, rfl⟩
  case equals => exact ⟨'=', by decide, rfl⟩

/-! ## Lists of nodes -/

theorem OpenSum.depth_le_depths {s : OpenSum} {sums : List OpenSum} (hs : s ∈ sums) :
    s.depth ≤ OpenSum.depths sums := by
  induction sums with
  | nil => cases hs
  | cons t rest ih =>
    simp only [depths, List.map_cons, List.foldr_cons] at ih ⊢
    obtain rfl | hs := List.mem_cons.mp hs
    · omega
    · have := ih hs
      omega

/-- Behind a list whose parens match, no sum has open parens. -/
theorem Rooted.depths {root : Frame} {implicit : Nat} {sums : List OpenSum}
    (h : Rooted root implicit sums 0) : ∀ s ∈ sums, s.depth = 0 := by
  obtain ⟨outer, hk, -⟩ := h.excess
  intro s hs
  have := OpenSum.depth_le_depths hs
  omega

namespace Node

theorem compile_eq (n : Nat) : compile o nodes n =
    ((((writeAll o nodes (start n)).close o).root.finish).written o,
      ((writeAll o nodes (start n)).close o).counter) := rfl

/-- A regular list behind an operator or opening paren is written as by itself. -/
theorem writeAll_behind {base : Frame} {kind : Kind} (ho : o.ParenFree)
    (h : EveryList Regular nodes) (hbase : base.EndsOperand)
    (hkind : beginsOperand (some kind) = true) (n : Nat) : ∃ after, Agree after (writeAll o nodes (start n)).previous ∧
      writeAll o nodes ⟨some kind, base, [], 0, n⟩ = (writeAll o nodes (start n)).onto base after := by
  have honto : (⟨some kind, base, [], 0, n⟩ : Progress) = (start n).onto base (some kind) := by
    simp [onto, start, Frame.empty_onto]
  rw [honto]
  exact (continues_start h.here (h.opens ho) n).writeAll_onto ho hbase (.inr ⟨hkind, rfl⟩)

/-- The node before the end of a list is its last one, if it is not used up. -/
theorem isFunction_writeAll {p : Progress} (hp : p.previous.any Kind.isFunction = false)
    (h : ∀ node ∈ nodes.getLast?, node.kind.isFunction = false) :
    (writeAll o nodes p).previous.any Kind.isFunction = false := by
  induction nodes using List.reverseRecOn generalizing p with
  | nil => exact hp
  | append_singleton nodes node ih =>
    rw [writeAll_append]
    obtain ⟨exponent, base, -, -, heq⟩ | ⟨-, heq⟩ := advance_eq o (writeAll o nodes p) node
    · rw [writeAll, writeAll, heq]
      rfl
    · rw [writeAll, writeAll, heq]
      exact h node (by simp)

/-- Behind an operator outside parens the rest of a list is compiled by itself. -/
theorem compile_append_binary (ho : o.ParenFree) (hbefore : EveryList Regular before)
    (hbehind : EveryList Regular behind)
    (hlast : ∀ node ∈ before.getLast?, node.kind.isFunction = false) (op : BinaryOp) (n : Nat) :
    compile o (before ++ .binary op :: behind) n =
      (⟨(compile o before n).1.body ++ (compile o behind (compile o before n).2).1.body,
        (compile o before n).1.expr ++ op.symbol ++
          (compile o behind (compile o before n).2).1.expr⟩,
        (compile o behind (compile o before n).2).2) := by
  have hfirst := continues_start hbefore.here (hbefore.opens ho) n
  have hrooted := hfirst.rooted_writeAll ho
  have hends : (writeAll o before (start n)).advance o (binary op).kind ((binary op).meaning o) =
      ⟨some (binary op).kind, ((writeAll o before (start n)).close o).root.push op.symbol, [], 0,
        (compile o before n).2⟩ :=
    advance_of_endsArgument rfl (isFunction_writeAll rfl hlast) hrooted.depths
  have hkind : beginsOperand (some (binary op).kind) = true := rfl
  obtain ⟨after, -, hwrite⟩ := writeAll_behind ho hbehind
    (Frame.endsOperand_push_symbol ((writeAll o before (start n)).close o).root op) hkind
    (compile o before n).2
  obtain ⟨c, hc, hsymbol⟩ := op.symbol_eq
  have hbody := (opens_close ho hrooted).body
  rw [compile_eq, writeAll_append, writeAll, hends, hwrite, close_onto]
  simp only [onto, Frame.finish_onto, Frame.finish_push, hsymbol]
  rw [Expression.written_between hc hbody]
  rfl

/-- Parens around a list are parens around its expression. -/
theorem compile_grouped {c d : Char} (hopen : isLeftParen c = true) (hclose : isLeftParen d = false)
    (ho : o.ParenFree) (h : EveryList Regular nodes)
    (hlast : ∀ node ∈ nodes.getLast?, node.kind.isFunction = false) (n : Nat) :
    compile o (.paren c :: nodes ++ [.paren d]) n =
      (⟨(compile o nodes n).1.body, "(" ++ (compile o nodes n).1.expr ++ ")"⟩,
        (compile o nodes n).2) := by
  have hrooted := (continues_start h.here (h.opens ho) n).rooted_writeAll ho
  -- The opening paren comes first in the frame, and the closing one closes what the end would.
  have hbegin : (start n).advance o (paren c).kind ((paren c).meaning o) =
      ⟨some (paren c).kind, Frame.empty.push "(", [], 0, n⟩ := by
    simp [advance, separate, afterLog, adjustImplicit, start, kind, meaning, literal, hopen, apply,
      emit, Kind.endsArgument, Kind.isBinary, Kind.isRightParen, countParen, add, modifyFrame,
      Frame.add, Frame.pushBody, Expression.pure, Frame.empty]
  have hkind : beginsOperand (some (paren c).kind) = true := by
    simp [beginsOperand, kind, Kind.isLeftParen, hopen]
  obtain ⟨after, hafter, hwrite⟩ := writeAll_behind ho h (Frame.endsOperand_push_paren .empty)
    hkind n
  have hfunction : after.any Kind.isFunction = false :=
    hafter.isFunction.trans (isFunction_writeAll rfl hlast)
  have hends : ((writeAll o nodes (start n)).onto (Frame.empty.push "(") after).advance o
      (paren d).kind ((paren d).meaning o) =
      ⟨some (paren d).kind, (((writeAll o nodes (start n)).close o).root.onto
        (Frame.empty.push "(")).push ")", [], 0, (compile o nodes n).2⟩ := by
    have hmeaning : (paren d).meaning o = literal ")" := by simp [meaning, hclose]
    have hcloses : (paren d).kind.endsArgument = true := by
      simp [kind, Kind.endsArgument, Kind.isRightParen, hclose]
    rw [hmeaning, advance_of_endsArgument (p := Progress.onto _ _ after) hcloses hfunction
      hrooted.depths, close_onto]
    rfl
  have hparen : (Frame.empty.push "(").finish = ⟨"", "("⟩ := rfl
  have hbody := (opens_close ho hrooted).body
  rw [compile_eq, List.cons_append, writeAll, hbegin, writeAll_append, hwrite, writeAll, writeAll,
    hends, close_of_closed, Frame.finish_push, Frame.finish_onto, hparen]
  simp only [String.empty_append, Expression.written_grouped hbody]
  rfl

/-- A list that an operator divides, and one that parens enclose, are compiled as their parts are by
themselves. -/
theorem compile_isolated (ho : o.ParenFree) (hbefore : EveryList Regular before)
    (hbehind : EveryList Regular behind)
    (hlast : ∀ node ∈ before.getLast?, node.kind.isFunction = false) (op : BinaryOp) (n : Nat) :
    compile o (before ++ [.binary op] ++ behind) n =
        (⟨(compile o before n).1.body ++ (compile o behind (compile o before n).2).1.body,
          (compile o before n).1.expr ++ op.symbol ++
            (compile o behind (compile o before n).2).1.expr⟩,
          (compile o behind (compile o before n).2).2) ∧
      compile o ([.paren '('] ++ before ++ [.paren ')']) n =
        (⟨(compile o before n).1.body, "(" ++ (compile o before n).1.expr ++ ")"⟩,
          (compile o before n).2) := by
  constructor
  · rw [List.append_assoc]
    exact compile_append_binary ho hbefore hbehind hlast op n
  · exact compile_grouped rfl rfl ho hbefore hlast n

/-- A sine and a sum on either side of an operator: sin 2 + ∑ i. -/
theorem compile_isolated_sine_and_sum :
    EveryList Regular [.function "sin", .atom "2"] ∧
      EveryList Regular [.big .sum [.atom "3"] [.atom "i", .binary .equals, .atom "1"], .atom "i"] ∧
      compile .standard ([.function "sin", .atom "2"] ++ [.binary .plus] ++
          [.big .sum [.atom "3"] [.atom "i", .binary .equals, .atom "1"], .atom "i"]) 0 =
        (⟨"\n\n\nfloat sum0 = 0.0;\nfor (float i=1.0; i <= 3.0; i++) \x7b\n    \n    sum0 += i;\n\x7d",
          "sin(2.0)+sum0"⟩, 1) := by
  have hsine : EveryList Regular [.function "sin", .atom "2"] :=
    .of_leaves ⟨rfl, by decide, by decide⟩ (by decide)
  have hsum : EveryList Regular
      [.big .sum [.atom "3"] [.atom "i", .binary .equals, .atom "1"], .atom "i"] := by
    refine .intro ⟨rfl, by decide, by decide⟩ ?_
    simp only [List.forall_mem_cons, lists, List.not_mem_nil, false_implies, implies_true, and_true]
    exact ⟨.of_leaves ⟨rfl, by decide, by decide⟩ (by simp [lists]),
      .of_leaves ⟨rfl, by decide, by decide⟩ (by simp [lists])⟩
  have h := (compile_isolated (o := .standard) ⟨by decide, by decide, by decide, by decide⟩ hsine
    hsum (by decide) .plus 0).1
  refine ⟨hsine, hsum, h.trans ?_⟩
  decide +kernel

end Node

end Lists

end FormulaEditor
