import FormulaEditor.Proofs.Expression.Balanced
import FormulaEditor.Proofs.Text.Numeral
import Mathlib.Data.List.Chain

/-!
# Parens left open in the root

However sums and function names follow each other, the text outside of all sums never closes more
parens than it has opened. A paren behind a function name may be closed inside a sum, and then stays
open outside. The operand that ends a text therefore never reaches back over an operator or over a
paren that was open before the text began.

The statements of an expression are blocks, each with a closing brace at its end.
-/

namespace FormulaEditor

namespace Frame

variable {frame : Frame} {s t token before after body : String} {tokens base : List String}
  {depth : Int}

theorem closingExcess_eq (s : String) :
    closingExcess s = (s.toList.count ')' : Int) - s.toList.count '(' := by
  have hfold : ∀ (cs : List Char) (n : Int),
      cs.foldl (fun n c => if c = ')' then n + 1 else if c = '(' then n - 1 else n) n =
        n + ((cs.count ')' : Int) - cs.count '(') := by
    intro cs
    induction cs with
    | nil => simp
    | cons c cs ih =>
      intro n
      rw [List.foldl_cons, ih]
      by_cases hc : c = ')'
      · subst hc
        simp
        omega
      · by_cases ho : c = '('
        · subst ho
          simp
          omega
        · simp [hc, ho]
  rw [closingExcess, hfold, Int.zero_add]

@[simp] theorem closingExcess_append :
    closingExcess (s ++ t) = closingExcess s + closingExcess t := by
  simp only [closingExcess_eq, String.toList_append, List.count_append]
  omega

theorem closingExcess_of_parenFree (h : ParenFree s) : closingExcess s = 0 := by
  have hclose : s.toList.count ')' = 0 := List.count_eq_zero.mpr fun hc => (h _ hc).2 rfl
  have hopen : s.toList.count '(' = 0 := List.count_eq_zero.mpr fun hc => (h _ hc).1 rfl
  rw [closingExcess_eq, hclose, hopen]
  rfl

theorem closingExcess_promoteIntegers :
    closingExcess (Text.promoteIntegers s) = closingExcess s := by
  have hcount : ∀ c, c = '(' ∨ c = ')' →
      (Text.promoteFrom (.outside false) s.toList).count c = s.toList.count c := by
    intro c hc
    have hp : (c == '(' || c == ')') = true := by simpa using hc
    have hfilter := congrArg (List.count c) (filter_promoteFrom (.outside false) s.toList)
    rwa [List.count_filter (p := fun c => c == '(' || c == ')') hp,
      List.count_filter (p := fun c => c == '(' || c == ')') hp] at hfilter
  simp only [closingExcess_eq, Text.promoteIntegers, String.toList_ofList,
    hcount '(' (.inl rfl), hcount ')' (.inr rfl)]

theorem closingExcess_repeated (n : Nat) : closingExcess (repeated n ")") = n := by
  induction n with
  | zero => rfl
  | succ n ih =>
    have hjoin : repeated (n + 1) ")" = ")" ++ repeated n ")" := by
      simp [repeated, List.replicate_succ, String.join_cons]
    have hclose : closingExcess ")" = 1 := rfl
    rw [hjoin, closingExcess_append, ih, hclose]
    omega

/-- How many more parens tokens close than they open. -/
def excessOf : List String → Int
  | [] => 0
  | token :: tokens => closingExcess token + excessOf tokens

theorem excessOf_append {more : List String} :
    excessOf (tokens ++ more) = excessOf tokens + excessOf more := by
  induction tokens with
  | nil => simp [excessOf]
  | cons token tokens ih => simp [excessOf, ih, Int.add_assoc]

/-- How many more parens the frame's text closes than it opens. -/
def excess (frame : Frame) : Int :=
  excessOf frame.tokens

@[simp] theorem excess_empty : excess .empty = 0 := rfl

@[simp] theorem excess_push : (frame.push token).excess = frame.excess + closingExcess token := by
  unfold push
  split
  · rename_i hempty
    obtain rfl : token = "" := by simpa using hempty
    exact (Int.add_zero _).symm
  · simp [excess, excessOf, Int.add_comm]

@[simp] theorem excess_pushBody : (frame.pushBody body).excess = frame.excess := rfl

@[simp] theorem excess_add {e : Expression} :
    (frame.add e).excess = frame.excess + closingExcess e.expr := by
  simp [add]

theorem excess_pop (h : ∀ token ∈ frame.tokens.head?, closingExcess token = 0) :
    frame.pop.excess = frame.excess := by
  unfold pop excess
  cases hf : frame.tokens with
  | nil => rfl
  | cons token tokens => simp [excessOf, h token (by simp [hf])]

@[simp] theorem excess_wrapOperand : (frame.wrapOperand before after).excess =
    frame.excess + closingExcess before + closingExcess after := by
  unfold wrapOperand excess
  simp only
  generalize operandLength 0 frame.tokens = size
  have hsplit : excessOf frame.tokens =
      excessOf (frame.tokens.take size) + excessOf (frame.tokens.drop size) := by
    rw [← excessOf_append, List.take_append_drop]
  simp only [List.cons_append, excessOf, excessOf_append, hsplit]
  omega

theorem closingExcess_finish : closingExcess frame.finish.expr = frame.excess := by
  obtain ⟨body, tokens⟩ := frame
  simp only [finish, excess]
  induction tokens with
  | nil => rfl
  | cons token tokens ih =>
    simp only [List.reverse_cons, String.join_append, closingExcess_append, ih, String.join_cons,
      String.join_nil, String.append_empty, excessOf]
    omega

/-- The last operand ends in tokens that close no more than they open, so it is found there if what
lies before them ends every operand. -/
theorem operandLength_append (hbase : ∀ d ≤ 0, operandLength d base = 0)
    (h : depth + excessOf tokens ≤ 0) :
    operandLength depth (tokens ++ base) = operandLength depth tokens := by
  -- What is left to count bounds the depth all the way, so it is at most zero where `base` begins.
  induction tokens generalizing depth with
  | nil => exact hbase depth (by simpa [excessOf] using h)
  | cons token tokens ih =>
    rw [excessOf, ← Int.add_assoc] at h
    simp only [List.cons_append, operandLength, ih h]

end Frame

/-! ## Statements -/

/-- Statements are none, or end in a closing brace. -/
def Blocks (s : String) : Prop :=
  s = "" ∨ ∃ t, s = t ++ "\x7d"

theorem Blocks.append {s t : String} (hs : Blocks s) (ht : Blocks t) : Blocks (s ++ t) := by
  obtain rfl | ⟨t, rfl⟩ := ht
  · simpa using hs
  · exact .inr ⟨s ++ t, by rw [String.append_assoc]⟩

/-! ## Expressions in the making -/

/-- The text closes no more than it opens, and the statements are blocks. -/
structure Expression.Opens (e : Expression) : Prop where
  body : Blocks e.body
  expr : Frame.closingExcess e.expr ≤ 0

theorem Expression.Opens.promoteIntegers {e : Expression} (h : e.Opens) :
    e.promoteIntegers.Opens := by
  refine ⟨?_, Int.le_trans (Int.le_of_eq Frame.closingExcess_promoteIntegers) h.expr⟩
  have hnone : Text.promoteIntegers "" = "" := rfl
  obtain hbody | ⟨t, hbody⟩ := h.body
  · exact .inl (by rw [Expression.promoteIntegers, hbody, hnone])
  · refine .inr ⟨Text.promoteIntegers t, ?_⟩
    have hbreak := Text.promoteIntegers_break (c := '\x7d') (by decide) t ""
    rw [hnone, String.append_empty, String.append_empty] at hbreak
    rw [Expression.promoteIntegers, hbody]
    exact hbreak

/-- Whatever number the first accumulator gets, the expression closes no more than it opens. -/
def Compilation.Opens (c : Compilation) : Prop :=
  ∀ n, (c n).1.Opens

/-- How many parens are open in sums. -/
def OpenSum.depths (sums : List OpenSum) : Nat :=
  (sums.map OpenSum.depth).foldr (· + ·) 0

/-- The root closes no more than it opens: with the explicit parens open outside of all sums, and
with those behind function names while no sum is open. -/
structure Rooted (root : Frame) (implicit : Nat) (sums : List OpenSum) (k : Nat) : Prop where
  body : Blocks root.body
  excess : ∃ outer : Nat, k = outer + OpenSum.depths sums ∧
    root.excess + outer + (if sums = [] then implicit else 0 : Nat) ≤ 0

theorem Rooted.excess_nonpos {root : Frame} {implicit k : Nat} {sums : List OpenSum}
    (h : Rooted root implicit sums k) : root.excess ≤ 0 := by
  obtain ⟨outer, -, hexcess⟩ := h.excess
  omega

/-- How many parens a node of this kind closes. -/
def Kind.closes (kind : Kind) : Int :=
  if kind.isLeftParen then -1 else if kind.isRightParen then 1 else 0

/-- What the node writes closes no more than it opens, but for the paren that its kind says. -/
def Meaning.Opens (kind : Kind) : Meaning → Prop
  | .scripts exponent base =>
    (∀ c ∈ exponent, Compilation.Opens c) ∧ ∀ c ∈ base, Compilation.Opens c
  | .piece text => ∀ n, Blocks (text n).1.body ∧
    Frame.closingExcess (text n).1.expr ≤ kind.closes
  | _ => True

/-- A loop is a block. -/
theorem OpenSum.blocks_loopText {op : BigOp} {name : String} {init last argument : Expression} :
    Blocks (loopText op name init last argument).body := by
  have hend : ∀ s, Blocks (s ++ ";\n\x7d") := fun s => .inr ⟨s ++ ";\n", by
    rw [String.append_assoc]
    rfl⟩
  exact hend _

theorem OpenSum.opens_fold {o : ExprOptions} (ho : o.ParenFree) (s : OpenSum) :
    Compilation.Opens (s.fold o) := fun _ =>
  ⟨blocks_loopText, Int.le_of_eq
    (Frame.closingExcess_of_parenFree (ho.accumulator.append (parenFree_toString _)))⟩

/-! ## Closing sums -/

/-- Closing sums leaves the root closing no more than it opens, if no paren is open behind a function
name. It ends where a sum has parens open. -/
theorem Rooted.settle {o : ExprOptions} {root : Frame} {sums : List OpenSum} {k : Nat}
    {e : Expression} (ho : o.ParenFree) (counter : Nat) (h : Rooted root 0 sums k) (he : e.Opens) :
    Rooted (Progress.settle o true e root counter sums).2.1 0
        (Progress.settle o true e root counter sums).1 k ∧
      ∀ s ∈ (Progress.settle o true e root counter sums).1.head?, s.depth ≠ 0 := by
  -- From the innermost sum out: each that is closed hands an expression of its own to the next, and
  -- only behind the last one the root is written to.
  induction sums generalizing e counter with
  | nil =>
    obtain ⟨outer, hk, hexcess⟩ := h.excess
    have hbody : Blocks (root.add e).body := Frame.body_add ▸ h.body.append he.body
    refine ⟨⟨hbody, outer, hk, ?_⟩, by simp [Progress.settle]⟩
    have := he.expr
    simp only [Progress.settle, Frame.excess_add] at hexcess ⊢
    omega
  | cons s rest ih =>
    obtain ⟨outer, hk, hexcess⟩ := h.excess
    rw [Progress.settle_cons, Bool.true_and]
    split
    · rename_i hdepth
      exact ⟨⟨h.body, outer, hk, hexcess⟩, by simpa using hdepth⟩
    · rename_i hdepth
      have hdepth : s.depth = 0 := by simpa using hdepth
      refine ih _ ⟨h.body, outer, ?_, ?_⟩ (OpenSum.opens_fold ho _ _)
      · simpa [OpenSum.depths, hdepth] using hk
      · simpa using hexcess

/-- Once all sums are closed the root closes no more than it opens. -/
theorem opens_settle {o : ExprOptions} {root : Frame} {sums : List OpenSum} {counter : Nat}
    {e : Expression} (ho : o.ParenFree) (hbody : Blocks root.body) (hexcess : root.excess ≤ 0)
    (he : e.Opens) :
    (Progress.settle o false e root counter sums).2.1.finish.Opens := by
  induction sums generalizing e counter with
  | nil =>
    refine ⟨(Frame.body_add ▸ hbody.append he.body : Blocks (root.add e).body), ?_⟩
    have := he.expr
    simp only [Progress.settle, Frame.closingExcess_finish, Frame.excess_add]
    omega
  | cons s rest ih =>
    rw [Progress.settle_cons, if_neg (by simp)]
    exact ih (OpenSum.opens_fold ho _ _)

namespace Progress

variable {o : ExprOptions} {p : Progress} {node : Node} {kind : Kind} {k j : Nat}
  {change : Frame → Frame} {e : Expression} {exponent base text : Compilation}

theorem opens_blank : Expression.blank.Opens :=
  ⟨.inl rfl, Int.le_refl 0⟩

theorem rooted_start (counter : Nat) : Rooted (start counter).root 0 (start counter).sums 0 :=
  ⟨.inl rfl, 0, rfl, Int.le_refl 0⟩

/-- A change to the innermost frame matters while no sum is open. -/
theorem rooted_modifyFrame (implicit' : Nat) (h : Rooted p.root p.implicit p.sums k)
    (hbody : p.sums = [] → Blocks (change p.root).body)
    (hchange : p.sums = [] → (change p.root).excess + implicit' ≤ p.root.excess + p.implicit) :
    Rooted (p.modifyFrame change).root implicit' (p.modifyFrame change).sums k := by
  obtain ⟨outer, hk, hexcess⟩ := h.excess
  -- As long as a sum is open, the innermost frame is not the root.
  obtain ⟨_, root, _ | ⟨s, rest⟩, implicit, _⟩ := p
  · have := hchange rfl
    refine ⟨hbody rfl, outer, hk, ?_⟩
    simp only [modifyFrame, if_true] at *
    omega
  · exact ⟨h.body, outer, hk, hexcess⟩

/-! ## Writing a node -/

theorem rooted_separate (h : Rooted p.root p.implicit p.sums k) :
    Rooted (p.separate kind).root p.implicit (p.separate kind).sums k := by
  unfold separate
  split
  · refine rooted_modifyFrame _ h (fun _ => h.body) fun _ => ?_
    have htimes : Frame.closingExcess "*" = 0 := rfl
    simp [htimes]
  · exact h

theorem rooted_adjustImplicit (h : Rooted p.root p.implicit p.sums k) :
    Rooted (p.adjustImplicit kind).root (p.adjustImplicit kind).implicit
      (p.adjustImplicit kind).sums k := by
  have hopen : Frame.closingExcess "(" = -1 := rfl
  unfold adjustImplicit
  split
  · refine rooted_modifyFrame (p.implicit + 1) h (fun _ => by simpa using h.body) fun _ => ?_
    rw [Frame.excess_push, hopen]
    omega
  · split
    · refine rooted_modifyFrame 0 h (fun _ => by simpa using h.body) fun _ => ?_
      simp [Frame.closingExcess_repeated]
    · exact h

theorem rooted_takeBase (ho : o.ParenFree) (h : Rooted p.root p.implicit p.sums k)
    (hlog : ∀ token ∈ p.current.tokens.head?, ParenFree token) (hb : base.Opens) :
    Rooted (p.takeBase o base).root (p.takeBase o base).implicit (p.takeBase o base).sums k := by
  have hpop : Rooted (p.modifyFrame Frame.pop).root p.implicit (p.modifyFrame Frame.pop).sums k := by
    refine rooted_modifyFrame _ h (fun _ => h.body) fun hs => ?_
    have hroot : p.current = p.root := by simp [current, hs]
    rw [hroot] at hlog
    have hpop := Frame.excess_pop fun token ht =>
      Frame.closingExcess_of_parenFree (hlog token ht)
    exact Int.le_of_eq (congrArg (· + (p.implicit : Int)) hpop)
  have hcall : Frame.closingExcess "(" + Frame.closingExcess "," = -1 := rfl
  have hname := Frame.closingExcess_of_parenFree ho.logBase
  have := (hb p.counter).expr
  rw [takeBase_eq]
  rw [← implicit_modifyFrame (p := p)] at hpop
  refine rooted_modifyFrame (p.implicit + 1) hpop (fun _ => ?_) fun _ => ?_
  · simpa using hpop.body.append (hb p.counter).body
  · simp only [Frame.excess_add, Frame.closingExcess_append, implicit_modifyFrame]
    omega

theorem rooted_raise (ho : o.ParenFree) (h : Rooted p.root p.implicit p.sums k)
    (he : exponent.Opens) :
    Rooted (p.raise o exponent).root p.implicit (p.raise o exponent).sums k := by
  have hcall : Frame.closingExcess "(" + Frame.closingExcess ", (" + Frame.closingExcess "))" = 0 :=
    rfl
  have hname := Frame.closingExcess_of_parenFree ho.power
  have := (he p.counter).expr
  refine rooted_modifyFrame _ h (fun _ => h.body.append (he p.counter).body) fun _ => ?_
  simp only [Frame.excess_pushBody, Frame.excess_wrapOperand, Frame.closingExcess_append]
  omega

theorem rooted_bang (ho : o.ParenFree) (h : Rooted p.root p.implicit p.sums k) :
    Rooted (p.apply o kind .bang).root p.implicit (p.apply o kind .bang).sums k := by
  have hcall : Frame.closingExcess "(" + Frame.closingExcess ")" = 0 := rfl
  have hname := Frame.closingExcess_of_parenFree ho.factorial
  refine rooted_modifyFrame _ h (fun _ => h.body) fun _ => ?_
  simp only [Frame.excess_wrapOperand, Frame.closingExcess_append]
  omega

/-- A paren behind a function name may be left open in front of a sum. -/
theorem rooted_big {op : BigOp} {top bottom : Compilation}
    (h : Rooted p.root p.implicit p.sums k) :
    Rooted (p.apply o kind (.big op top bottom)).root p.implicit
      (p.apply o kind (.big op top bottom)).sums k := by
  obtain ⟨outer, hk, hexcess⟩ := h.excess
  refine ⟨h.body, outer, by simpa [OpenSum.depths, apply] using hk, ?_⟩
  simp only [apply, reduceCtorEq, if_false]
  omega

theorem rooted_countParen (counter : Nat) (h : Rooted p.root p.implicit p.sums k)
    (hk : openAfter Kind.isLeftParen Kind.isRightParen k [kind] = some j)
    (hhead : kind.endsArgument = true → ∀ s ∈ p.sums.head?, s.depth ≠ 0)
    (hb : Blocks e.body) (he : Frame.closingExcess e.expr ≤ kind.closes) :
    Rooted (({ p.add e with counter } : Progress).countParen kind).root p.implicit
      (({ p.add e with counter } : Progress).countParen kind).sums j := by
  obtain ⟨outer, houter, hexcess⟩ := h.excess
  simp only [openAfter] at hk
  unfold Kind.closes at he
  obtain ⟨previous, root, _ | ⟨s, rest⟩, implicit, _⟩ := p
  · have hbody : Blocks (root.add e).body := Frame.body_add ▸ h.body.append hb
    simp only [OpenSum.depths, List.map_nil, List.foldr_nil, if_true, Nat.add_zero] at houter hexcess
    subst houter
    refine ⟨hbody, j, rfl, ?_⟩
    simp only [add, modifyFrame, countParen, Frame.excess_add, if_true]
    split at hk
    · have := Option.some.inj hk
      rw [if_pos ‹_›] at he
      omega
    · rw [if_neg ‹_›] at he
      split at hk
      · rw [if_pos ‹_›] at he
        split at hk
        · cases hk
        · have := Option.some.inj hk
          omega
      · rw [if_neg ‹_›] at he
        have := Option.some.inj hk
        omega
  · -- What is written goes into the innermost sum, and the root is as it was.
    simp only [OpenSum.depths, List.map_cons, List.foldr_cons, reduceCtorEq, if_false] at houter hexcess
    refine ⟨by simpa [add, modifyFrame] using h.body, outer, ?_, ?_⟩
    · rw [OpenSum.depths, depths_countParen]
      simp only [add, modifyFrame, List.map_cons, List.modifyHead_cons]
      split at hk
      · have := Option.some.inj hk
        rw [if_pos ‹_›, List.foldr_cons]
        omega
      · rw [if_neg ‹_›]
        split at hk
        · rename_i hright
          have hdepth : s.depth ≠ 0 := hhead (by simp [Kind.endsArgument, hright]) s (by simp)
          rw [if_pos hright, List.foldr_cons]
          split at hk
          · cases hk
          · have := Option.some.inj hk
            omega
        · have := Option.some.inj hk
          rw [if_neg ‹_›, List.foldr_cons]
          omega
    · simpa [add, modifyFrame] using hexcess

theorem rooted_emit (ho : o.ParenFree) (h : Rooted p.root p.implicit p.sums k)
    (hp : kind.endsArgument = true → p.implicit = 0)
    (hk : openAfter Kind.isLeftParen Kind.isRightParen k [kind] = some j)
    (hopen : (Meaning.piece text).Opens kind) :
    Rooted (p.emit o kind text).root p.implicit (p.emit o kind text).sums j := by
  rw [emit_eq]
  unfold beforeText
  split
  · rename_i hends
    have hzero := hp hends
    rw [hzero] at h ⊢
    obtain ⟨hroot, hhead⟩ := h.settle ho p.counter opens_blank
    have hclosed : Rooted (p.closeSums o true).root (p.closeSums o true).implicit
        (p.closeSums o true).sums k := by
      rw [implicit_closeSums, hzero]
      exact hroot
    have := rooted_countParen (text (p.closeSums o true).counter).2 hclosed hk
      (fun _ => hhead) (hopen (p.closeSums o true).counter).1 (hopen _).2
    rwa [implicit_closeSums, hzero] at this
  · rename_i hends
    exact rooted_countParen _ h hk (fun hc => absurd hc hends) (hopen _).1 (hopen _).2

/-- A node that is no paren leaves open what is open before it. -/
theorem eq_of_openAfter (hl : kind.isLeftParen = false) (hr : kind.isRightParen = false)
    (h : openAfter Kind.isLeftParen Kind.isRightParen k [kind] = some j) : k = j := by
  simpa [openAfter, hl, hr] using h

/-- Parens behind a function name that is followed by more than an operator are closed before sums
are. -/
theorem implicit_adjustImplicit_of_endsArgument (hends : kind.endsArgument = true)
    (hp : p.previous.any Kind.isFunction = false) : (p.adjustImplicit kind).implicit = 0 := by
  rw [adjustImplicit, hp, Bool.false_and, if_neg (by decide), if_pos hends]
  rfl

theorem rooted_advance (ho : o.ParenFree) (h : Rooted p.root p.implicit p.sums k)
    (hlog : p.Logged)
    (hp : node.kind.endsArgument = true → p.previous.any Kind.isFunction = false)
    (hk : openAfter Kind.isLeftParen Kind.isRightParen k [node.kind] = some j)
    (hopen : (node.meaning o).Opens node.kind) :
    Rooted (p.advance o node.kind (node.meaning o)).root
      (p.advance o node.kind (node.meaning o)).implicit
      (p.advance o node.kind (node.meaning o)).sums j := by
  obtain ⟨exponent, base, hmean, hafter, heq⟩ | ⟨-, heq⟩ := advance_eq o p node
  · have hkind := Node.kind_of_meaning_scripts hmean
    rw [hkind] at heq hk
    rw [hmean] at hopen
    obtain rfl := eq_of_openAfter rfl rfl hk
    rw [hkind, heq, separate_scripts]
    exact rooted_takeBase ho h (hlog.parenFree hafter) (hopen.2 base rfl)
  · rw [heq]
    have hq : Rooted ((p.separate node.kind).adjustImplicit node.kind).root _ _ k :=
      rooted_adjustImplicit (by simpa using rooted_separate h)
    have hzero := fun hends => implicit_adjustImplicit_of_endsArgument (p := p.separate node.kind)
      hends (by simpa using hp hends)
    -- From here on the node matters by its kind and its meaning only.
    generalize (p.separate node.kind).adjustImplicit node.kind = q at hq hzero
    have hsuits := Node.meaning_suits o node
    generalize node.kind = kind at hk hopen hsuits hzero
    generalize node.meaning o = meaning at hopen hsuits
    change Rooted (q.apply o kind meaning).root (q.apply o kind meaning).implicit
      (q.apply o kind meaning).sums j
    rw [implicit_apply]
    rcases meaning with ⟨_ | exponent, base⟩ | _ | ⟨op, top, bottom⟩ | text
    · obtain rfl : kind = .scripts := hsuits
      obtain rfl := eq_of_openAfter rfl rfl hk
      exact hq
    · obtain rfl : kind = .scripts := hsuits
      obtain rfl := eq_of_openAfter rfl rfl hk
      exact rooted_raise ho hq (hopen.1 exponent rfl)
    · cases kind <;> simp only [Meaning.Suits, Kind.isAtom, Bool.false_eq_true] at hsuits
      obtain rfl := eq_of_openAfter rfl rfl hk
      exact rooted_bang ho hq
    · obtain rfl : kind = .big op := hsuits
      obtain rfl := eq_of_openAfter rfl rfl hk
      exact rooted_big hq
    · exact rooted_emit ho hq hzero hk hopen

/-- Whatever is closed at its end, the expression closes no more than it opens. -/
theorem opens_close (ho : o.ParenFree) (h : Rooted p.root p.implicit p.sums k) :
    (p.close o).root.finish.Opens := by
  have hpush : Rooted (p.push (repeated p.implicit ")")).root 0
      (p.push (repeated p.implicit ")")).sums k :=
    rooted_modifyFrame 0 h (fun _ => by simpa using h.body)
      fun _ => by simp [Frame.closingExcess_repeated]
  exact opens_settle ho hpush.body hpush.excess_nonpos opens_blank

/-- The finished expression closes no more than it opens. -/
theorem opens_finish (ho : o.ParenFree) (h : Rooted p.root p.implicit p.sums k) :
    (p.finish o).1.Opens := by
  rw [finish_eq, Expression.written]
  split
  · exact (opens_close ho h).promoteIntegers
  · exact opens_close ho h

end Progress

/-! ## Lists -/

/-- The nodes may stand side by side: a function name does not come directly before an operator or a
closing paren. -/
def Node.Parted (node next : Node) : Prop :=
  ¬(node.kind.isFunction = true ∧ next.kind.endsArgument = true)

instance : DecidableRel Node.Parted :=
  fun node next => inferInstanceAs (Decidable ¬(node.kind.isFunction = true ∧ next.kind.endsArgument = true))

/-- The parens of the list match, its names have no parens, and no function name stands directly
before an operator or a closing paren. -/
structure Node.Regular (nodes : List Node) : Prop where
  matched : (ParenMatches.of (nodes.map kind)).isBalanced = true
  apart : nodes.IsChain Parted
  parenFree : ∀ node ∈ nodes, node.ParenFree

namespace Compilation

variable {numerator denominator index radicand argument : Compilation} {name : String}

theorem Opens.quotient (hn : numerator.Opens) (hd : denominator.Opens) :
    (Node.quotient numerator denominator).Opens := fun n => by
  refine ⟨(hn n).body.append (hd _).body, ?_⟩
  have hnum := (hn n).expr
  have hden := (hd (numerator n).2).expr
  have hsigns : Frame.closingExcess "(" + Frame.closingExcess ")/(" + Frame.closingExcess ")" = 0 :=
    rfl
  simp only [Node.quotient, Frame.closingExcess_append]
  omega

theorem Opens.squareRoot (hr : radicand.Opens) : (Node.squareRoot radicand).Opens := fun n => by
  refine ⟨(hr n).body, ?_⟩
  have hrad := (hr n).expr
  have hsigns : Frame.closingExcess "sqrt(" + Frame.closingExcess ")" = 0 := rfl
  simp only [Node.squareRoot, Frame.closingExcess_append]
  omega

theorem Opens.indexedRoot (hi : index.Opens) (hr : radicand.Opens) :
    (Node.indexedRoot index radicand).Opens := fun n => by
  refine ⟨(hr n).body.append (hi _).body, ?_⟩
  have hrad := (hr n).expr
  have hind := (hi (radicand n).2).expr
  have hsigns : Frame.closingExcess "pow(" + Frame.closingExcess ", 1.0/(" +
      Frame.closingExcess "))" = 0 := rfl
  simp only [Node.indexedRoot, Frame.closingExcess_append]
  omega

theorem Opens.call (hn : ParenFree name) (ha : argument.Opens) : (Node.call name argument).Opens :=
  fun n => by
    refine ⟨(ha n).body, ?_⟩
    have harg := (ha n).expr
    have hname := Frame.closingExcess_of_parenFree hn
    have hsigns : Frame.closingExcess "(" + Frame.closingExcess ")" = 0 := rfl
    simp only [Node.call, Frame.closingExcess_append]
    omega

end Compilation

/-- A node opens what its kind says once the lists it holds open what they do. -/
theorem Node.meaning_opens {o : ExprOptions} {node : Node} (hn : node.ParenFree)
    (hl : ∀ l ∈ node.lists, Compilation.Opens (compile o l)) :
    (node.meaning o).Opens node.kind := by
  have hpure : ∀ {s : String} {kind : Kind}, Frame.closingExcess s ≤ kind.closes →
      (literal s).Opens kind := fun h _ => ⟨.inl rfl, h⟩
  have hpiece : ∀ {text : Compilation} {kind : Kind}, kind.closes = 0 ∧ text.Opens →
      (Meaning.piece text).Opens kind := fun h n => ⟨(h.2 n).body, h.1 ▸ (h.2 n).expr⟩
  have hfree : ∀ {s : String}, FormulaEditor.ParenFree s → Frame.closingExcess s ≤ 0 :=
    fun h => Int.le_of_eq (Frame.closingExcess_of_parenFree h)
  have hsome : ∀ {c : Compilation}, c.Opens → ∀ d ∈ some c, d.Opens := by
    rintro c hc _ ⟨⟩
    exact hc
  cases made hl with
  | atom =>
    simp only [meaning]
    split
    · trivial
    · exact hpure (hfree (parenFree_symbolText hn))
  | binary op => exact hpure (hfree (parenFree_symbol op))
  | function => exact hpure (hfree hn)
  | paren c =>
    have hcloses : (Kind.paren c).closes = if isLeftParen c then -1 else 1 := by
      cases hc : isLeftParen c <;> simp [Kind.closes, Kind.isLeftParen, Kind.isRightParen, hc]
    refine hpure (hcloses ▸ ?_)
    split <;> decide
  | frac hnum hden => exact hpiece ⟨rfl, hnum.quotient hden⟩
  | squareRoot hr => exact hpiece ⟨rfl, hr.squareRoot⟩
  | indexedRoot hi hr => exact hpiece ⟨rfl, hi.indexedRoot hr⟩
  | noScripts => exact ⟨by simp, by simp⟩
  | subscript hs => exact ⟨by simp, hsome hs⟩
  | exponent he => exact ⟨hsome he, by simp⟩
  | bothScripts he hs => exact ⟨hsome he, hsome hs⟩
  | wrapped wrap ha => exact hpiece ⟨rfl, .call (parenFree_wrap wrap) ha⟩
  | big => trivial

namespace Progress

variable {o : ExprOptions} {p : Progress} {nodes : List Node} {k j : Nat}

/-- The expression goes on with nodes that leave open `j` of the `k` parens before them and of their
own. None of the nodes ends the argument of a function name directly before it. -/
structure Continues (o : ExprOptions) (p : Progress) (nodes : List Node) (k j : Nat) : Prop where
  apart : nodes.IsChain Node.Parted
  opens : ∀ node ∈ nodes, (node.meaning o).Opens node.kind
  opened : openAfter Kind.isLeftParen Kind.isRightParen k (nodes.map Node.kind) = some j
  parted : ∀ node ∈ nodes.head?, node.kind.endsArgument = true →
    p.previous.any Kind.isFunction = false
  logged : p.Logged
  rooted : Rooted p.root p.implicit p.sums k

theorem continues_start (h : Node.Regular nodes)
    (hopen : ∀ node ∈ nodes, (node.meaning o).Opens node.kind) (counter : Nat) :
    (start counter).Continues o nodes 0 0 where
  apart := h.apart
  opens := hopen
  opened := openAfter_of_isBalanced h.matched
  parted _ _ _ := rfl
  logged := logged_start counter
  rooted := rooted_start counter

theorem Continues.advance {node : Node} (ho : o.ParenFree) (h : p.Continues o (node :: nodes) k j) :
    ∃ i, (p.advance o node.kind (node.meaning o)).Continues o nodes i j := by
  have hopened := h.opened
  rw [List.map_cons, ← List.singleton_append, openAfter_append] at hopened
  obtain ⟨i, hi, hrest⟩ := Option.bind_eq_some_iff.mp hopened
  refine ⟨i, (List.isChain_cons.mp h.apart).2, fun n hn => h.opens n (List.mem_cons_of_mem _ hn),
    hrest, ?_, logged_advance, rooted_advance ho h.rooted h.logged (h.parted node rfl) hi
      (h.opens node List.mem_cons_self)⟩
  intro m hm hends
  obtain ⟨exponent, base, -, -, heq⟩ | ⟨-, heq⟩ := advance_eq o p node
  · rw [heq]
    rfl
  · rw [heq]
    have hapart : Node.Parted node m := (List.isChain_cons.mp h.apart).1 m hm
    simpa [Node.Parted, hends] using hapart

/-- Behind the nodes of a list the root closes no more than it opens. -/
theorem Continues.rooted_writeAll (ho : o.ParenFree) (h : p.Continues o nodes k j) :
    Rooted (Node.writeAll o nodes p).root (Node.writeAll o nodes p).implicit
      (Node.writeAll o nodes p).sums j := by
  -- `Continues` speaks of the nodes that are left, so it is what a step hands on.
  induction nodes generalizing p k with
  | nil =>
    obtain rfl : k = j := by simpa [openAfter] using h.opened
    exact h.rooted
  | cons node nodes ih =>
    obtain ⟨i, hi⟩ := h.advance ho
    exact ih hi

end Progress

/-- A regular formula becomes an expression that closes no more than it opens. -/
theorem Node.compile_opens {o : ExprOptions} {nodes : List Node} (ho : o.ParenFree)
    (h : EveryList Regular nodes) : Compilation.Opens (compile o nodes) := by
  induction h with
  | @intro nodes here _ ih =>
    have hopen : ∀ node ∈ nodes, (node.meaning o).Opens node.kind := fun node hn =>
      meaning_opens (here.parenFree node hn) fun l hl => ih node hn l hl
    exact fun n =>
      Progress.opens_finish ho ((Progress.continues_start here hopen n).rooted_writeAll ho)

/-- What the nodes of a regular formula write closes no more than it opens. -/
theorem Node.EveryList.opens {o : ExprOptions} {nodes : List Node} (ho : o.ParenFree)
    (h : EveryList Regular nodes) : ∀ node ∈ nodes, (node.meaning o).Opens node.kind :=
  fun node hn => meaning_opens (h.here.parenFree node hn) fun _ hl => compile_opens ho (h.inside hn hl)

end FormulaEditor
