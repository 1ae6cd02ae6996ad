import FormulaEditor.Proofs.Expression.Isolation
import FormulaEditor.Proofs.Expression.Margin
import FormulaEditor.Proofs.Expression.Related

/-!
# Arguments without parens

A function name without parens opens one by itself. It is as if it stood there, and as if one that
closes it stood before the next operator or closing paren, however deep in other parens that is. The
two ways of writing differ at most in how closing parens are put together to tokens.
-/

namespace FormulaEditor

theorem repeated_succ (n : Nat) (text : String) :
    repeated (n + 1) text = repeated n text ++ text := by
  simp [repeated, List.replicate_succ', String.join_append, String.join_cons]

/-! ## Closing parens in one token or two -/

namespace Frame

/-- The frames are the same but for closing parens that are one token in the first of them, and of
which the last one is a token by itself in the second. -/
inductive Regrouped : Frame → Frame → Prop
  | same (frame : Frame) : Regrouped frame frame
  | parens (body : String) (later : List String) (n : Nat) (earlier : List String) :
    Regrouped ⟨body, later ++ repeated (n + 1) ")" :: earlier⟩
      ⟨body, later ++ ")" :: repeated n ")" :: earlier⟩

variable {f g : Frame} {later earlier tokens : List String} {token : String} {depth : Int}

theorem operandLength_cons_of_pos (h : 0 < depth + closingExcess token) :
    operandLength depth (token :: tokens) =
      operandLength (depth + closingExcess token) tokens + 1 := by
  have hnonneg : ¬depth + closingExcess token < 0 := by omega
  have hne : ¬depth + closingExcess token = 0 := by omega
  simp [operandLength, hnonneg, hne]

/-- The last operand lies behind the closing parens, or goes on before all of them. -/
theorem operandLength_regrouped (later : List String) (n : Nat) (earlier : List String)
    (h : 0 ≤ depth) :
    operandLength depth (later ++ repeated (n + 1) ")" :: earlier) ≤ later.length ∧
        operandLength depth (later ++ ")" :: repeated n ")" :: earlier) =
          operandLength depth (later ++ repeated (n + 1) ")" :: earlier) ∨
      ∃ k, operandLength depth (later ++ repeated (n + 1) ")" :: earlier) = later.length + (k + 1) ∧
        operandLength depth (later ++ ")" :: repeated n ")" :: earlier) =
          later.length + (k + 2) := by
  induction later generalizing depth with
  | nil =>
    have hone : closingExcess ")" = 1 := rfl
    have hmany := closingExcess_repeated n
    have hall := closingExcess_repeated (n + 1)
    refine .inr ⟨operandLength (depth + (n + 1 : Nat)) earlier, ?_, ?_⟩
    · rw [List.nil_append, operandLength_cons_of_pos (by omega), hall]
      simp
    · have hsum : depth + 1 + n = depth + (n + 1 : Nat) := by omega
      rw [List.nil_append, operandLength_cons_of_pos (by omega),
        operandLength_cons_of_pos (by omega), hone, hmany, hsum]
      simp
  | cons token later ih =>
    simp only [List.cons_append, operandLength]
    split
    · exact .inl ⟨Nat.zero_le _, rfl⟩
    · rename_i hstop
      have hdepth : 0 ≤ depth + closingExcess token := by
        by_contra hneg
        exact hstop (by simp [Int.lt_of_not_ge hneg])
      rw [List.length_cons]
      rcases ih hdepth with ⟨hle, heq⟩ | ⟨k, hk, hk'⟩
      · exact .inl ⟨by omega, by rw [heq]⟩
      · exact .inr ⟨k, by omega, by omega⟩

namespace Regrouped

theorem push (h : f.Regrouped g) (token : String) : (f.push token).Regrouped (g.push token) := by
  unfold Frame.push
  split
  · exact h
  · cases h with
    | same frame => exact .same _
    | parens body later n earlier => exact .parens body (token :: later) n earlier

theorem pushBody (h : f.Regrouped g) (body : String) :
    (f.pushBody body).Regrouped (g.pushBody body) := by
  cases h with
  | same frame => exact .same _
  | parens _ later n earlier => exact .parens _ later n earlier

theorem pop (h : f.Regrouped g) (hf : ∀ token ∈ f.tokens.head?, ParenFree token) :
    f.pop.Regrouped g.pop := by
  cases h with
  | same frame => exact .same _
  | parens body later n earlier =>
    cases later with
    | nil =>
      have hfree : ParenFree (repeated (n + 1) ")") := hf _ rfl
      have hexcess := closingExcess_of_parenFree hfree
      rw [closingExcess_repeated] at hexcess
      omega
    | cons token later => exact .parens body later n earlier

theorem wrapOperand (h : f.Regrouped g) (before after : String) :
    (f.wrapOperand before after).Regrouped (g.wrapOperand before after) := by
  cases h with
  | same frame => exact .same _
  | parens body later n earlier =>
    simp only [Frame.wrapOperand]
    rcases operandLength_regrouped later n earlier (Int.le_refl 0) with ⟨hle, heq⟩ | ⟨k, hk, hk'⟩
    · rw [heq]
      generalize operandLength 0 (later ++ repeated (n + 1) ")" :: earlier) = size at hle
      rw [List.take_append_of_le_length hle, List.take_append_of_le_length hle,
        List.drop_append_of_le_length hle, List.drop_append_of_le_length hle]
      simpa using Regrouped.parens body (after :: later.take size ++ before :: later.drop size) n
        earlier
    · rw [hk, hk', List.take_length_add_append, List.take_length_add_append,
        List.drop_length_add_append, List.drop_length_add_append]
      simpa using Regrouped.parens body (after :: later) n (earlier.take k ++ before :: earlier.drop k)

theorem finish (h : f.Regrouped g) : f.finish = g.finish := by
  cases h with
  | same frame => rfl
  | parens body later n earlier =>
    simp only [Frame.finish, List.reverse_append, List.reverse_cons, String.join_append,
      String.join_cons, String.join_nil, String.append_empty, repeated_succ, String.append_assoc]

end Regrouped

/-- Closing parens are put in one token, or the last one apart. -/
theorem regrouped_push (frame : Frame) (n : Nat) : (frame.push (repeated (n + 1) ")")).Regrouped
    ((frame.push (repeated n ")")).push ")") := by
  cases n with
  | zero => exact .same _
  | succ n =>
    have hpush : ∀ n, frame.push (repeated (n + 1) ")") =
        ⟨frame.body, repeated (n + 1) ")" :: frame.tokens⟩ := by
      intro n
      refine if_neg fun hempty => ?_
      have hexcess := closingExcess_repeated (n + 1)
      rw [String.isEmpty_iff.mp hempty] at hexcess
      have hzero : closingExcess "" = 0 := rfl
      omega
    rw [hpush, hpush]
    exact .parens frame.body [] (n + 1) frame.tokens

theorem kept_regrouped : Kept Regrouped where
  push h token := h.push token
  pushBody h body := h.pushBody body
  pop h hf _ := h.pop hf
  wrapOperand h before after := h.wrapOperand before after

end Frame

namespace Progress

variable {o : ExprOptions} {p q : Progress} {kind : Kind} {meaning : Meaning} {node : Node}

/-- The expressions in the making are the same but for closing parens outside of all sums that are
put together to tokens differently. -/
abbrev Regrouped (p q : Progress) : Prop :=
  Related Frame.Regrouped (fun _ _ => False) p q

theorem kept_regrouped (o : ExprOptions) : Kept o Frame.Regrouped fun _ _ => False where
  toKept := Frame.kept_regrouped
  depth h := h.elim
  setDepth h := h.elim
  modify h := h.elim
  settle h := h.elim

theorem Related.regrouped_finish (h : p.Regrouped q) : p.finish o = q.finish o := by
  have hroot := h.root_close (kept_regrouped o)
  rw [finish_eq, finish_eq, hroot.finish, (h.close (kept_regrouped o)).counter]

/-! ## One more paren to close -/

/-- The expression with one more paren that is to be closed. -/
def owing (p : Progress) : Progress :=
  { p with implicit := p.implicit + 1 }

@[simp] theorem previous_owing : p.owing.previous = p.previous := rfl

@[simp] theorem counter_owing : p.owing.counter = p.counter := rfl

@[simp] theorem afterLog_owing : p.owing.afterLog = p.afterLog := rfl

@[simp] theorem modifyFrame_owing {change : Frame → Frame} :
    p.owing.modifyFrame change = (p.modifyFrame change).owing := by
  obtain ⟨_, _, _ | _, _, _⟩ := p <;> rfl

@[simp] theorem separate_owing : p.owing.separate kind = (p.separate kind).owing := by
  unfold separate
  rw [previous_owing]
  split
  · exact modifyFrame_owing
  · rfl

theorem adjustImplicit_owing (hends : kind.endsArgument = false) :
    p.owing.adjustImplicit kind = (p.adjustImplicit kind).owing := by
  unfold adjustImplicit
  rw [previous_owing, hends]
  split
  · simp only [push, modifyFrame_owing]
    rfl
  · rfl

theorem takeBase_owing {base : Compilation} :
    p.owing.takeBase o base = (p.takeBase o base).owing := by
  simp only [takeBase_eq, add, modifyFrame_owing, counter_owing]
  rfl

theorem apply_owing (hends : kind.endsArgument = false) :
    p.owing.apply o kind meaning = (p.apply o kind meaning).owing := by
  rcases meaning with ⟨_ | exponent, base⟩ | _ | ⟨op, top, bottom⟩ | text
  · rfl
  · simp only [apply, raise_eq, modifyFrame_owing, counter_owing]
    rfl
  · simp only [apply, modifyFrame_owing]
  · rfl
  · simp only [apply, emit_eq, beforeText, hends, Bool.false_eq_true, if_false, add,
      modifyFrame_owing, counter_owing, countParen_eq]
    rfl

/-- Nodes that end no argument do not ask how many parens are to be closed. -/
theorem advance_owing (hends : kind.endsArgument = false) :
    p.owing.advance o kind meaning = (p.advance o kind meaning).owing := by
  unfold advance
  simp only [separate_owing, afterLog_owing, adjustImplicit_owing hends, apply_owing hends,
    takeBase_owing]
  split <;> rfl

theorem writeAll_owing {nodes : List Node} (h : ∀ node ∈ nodes, node.kind.endsArgument = false) :
    Node.writeAll o nodes p.owing = (Node.writeAll o nodes p).owing := by
  induction nodes generalizing p with
  | nil => rfl
  | cons node nodes ih =>
    obtain ⟨hnode, hrest⟩ := List.forall_mem_cons.mp h
    rw [Node.writeAll, Node.writeAll, advance_owing hnode, ih hrest]

/-! ## Behind a function name -/

/-- Sums are opened by sums only. -/
theorem sums_advance_eq_nil (h : p.sums = []) (hbig : node.kind.isBig = false) :
    (p.advance o node.kind (node.meaning o)).sums = [] := by
  have hdepths : (p.advance o node.kind (node.meaning o)).sums.map OpenSum.depth = [] := by
    obtain ⟨exponent, base, -, -, heq⟩ | ⟨-, heq⟩ := advance_eq o p node
    · simp [heq, takeBase_eq, add, h]
    · have happly := depths_apply (o := o) (m := .start) (Node.meaning_suits o node)
        (p := (p.separate node.kind).adjustImplicit node.kind) (by simp [h, Margin.start])
      simpa [heq, Margin.depthsBehind, hbig, Margin.start] using happly
  simpa using hdepths

theorem sums_writeAll_eq_nil {nodes : List Node} (h : p.sums = [])
    (hbig : ∀ node ∈ nodes, node.kind.isBig = false) : (Node.writeAll o nodes p).sums = [] := by
  induction nodes generalizing p with
  | nil => exact h
  | cons node nodes ih =>
    obtain ⟨hnode, hrest⟩ := List.forall_mem_cons.mp hbig
    exact ih (sums_advance_eq_nil h hnode) hrest

/-- Where a node is no scripts, its meaning is applied. -/
theorem advance_of_not_scripts (hscripts : node.kind.isScripts = false) :
    p.advance o node.kind (node.meaning o) =
      { ((p.separate node.kind).adjustImplicit node.kind).apply o node.kind (node.meaning o) with
        previous := some node.kind } := by
  obtain ⟨exponent, base, hm, -, -⟩ | ⟨-, heq⟩ := advance_eq o p node
  · have hkind := Node.kind_of_meaning_scripts hm
    rw [hkind] at hscripts
    cases hscripts
  · exact heq

theorem advance_leftParen {c : Char} (hopen : isLeftParen c = true) {name : String} {root : Frame}
    {implicit counter : Nat} :
    (⟨some (.function name), root, [], implicit, counter⟩ : Progress).advance o (Node.paren c).kind
        ((Node.paren c).meaning o) =
      ⟨some (.paren c), root.push "(", [], implicit, counter⟩ := by
  rw [advance_of_not_scripts rfl]
  simp [separate, adjustImplicit, impliesProduct, Kind.isFunction, Node.kind, Node.meaning,
    Node.literal, hopen, Kind.isLeftParen, Kind.isRightParen, Kind.isBinary, Kind.endsArgument,
    apply, emit, countParen, add, modifyFrame, Frame.add, Frame.pushBody, Expression.pure]

/-- The node before has no effect on what a meaning does. -/
theorem apply_setPrevious (previous : Option Kind) :
    ({ p with previous } : Progress).apply o kind meaning =
      { p.apply o kind meaning with previous } := by
  have hmodify : ∀ (p : Progress) (change : Frame → Frame),
      ({ p with previous } : Progress).modifyFrame change =
        { p.modifyFrame change with previous } := by
    rintro ⟨_, _, _ | _, _, _⟩ change <;> rfl
  rcases meaning with ⟨_ | exponent, base⟩ | _ | ⟨op, top, bottom⟩ | text
  · rfl
  · simp only [apply, raise_eq, hmodify]
  · exact hmodify p (·.wrapOperand (o.factorialFunction ++ "(") ")")
  · rfl
  · have hbefore : ({ p with previous } : Progress).beforeText o kind =
        { p.beforeText o kind with previous } := by
      unfold beforeText
      split <;> rfl
    simp only [apply, emit_eq, hbefore, add, hmodify, countParen_eq]

/-- The paren in front of the first node of an argument is written, or else opened by that node. -/
theorem advance_argument {c : Char} (hopen : isLeftParen c = true) {name : String} {root : Frame}
    {implicit counter : Nat} (hleft : node.kind.isLeftParen = false)
    (hscripts : node.kind.isScripts = false) (hends : node.kind.endsArgument = false) :
    (⟨some (.function name), root, [], implicit, counter⟩ : Progress).advance o node.kind
        (node.meaning o) =
      ((⟨some (.paren c), root.push "(", [], implicit, counter⟩ : Progress).advance o node.kind
        (node.meaning o)).owing := by
  have hbehind : impliesProduct (.function name) node.kind = false := by
    simp [impliesProduct, Kind.isFunction]
  have hinside : impliesProduct (.paren c) node.kind = false := by
    simp [impliesProduct, Kind.isLeftParen, hopen]
  rw [advance_of_not_scripts hscripts, advance_of_not_scripts hscripts]
  have hopened : ((⟨some (.function name), root, [], implicit, counter⟩ : Progress).separate
      node.kind).adjustImplicit node.kind =
        ⟨some (.function name), root.push "(", [], implicit + 1, counter⟩ := by
    simp [separate, adjustImplicit, hbehind, hleft, Kind.isFunction, push, modifyFrame]
  have hwritten : ((⟨some (.paren c), root.push "(", [], implicit, counter⟩ : Progress).separate
      node.kind).adjustImplicit node.kind =
        ⟨some (.paren c), root.push "(", [], implicit, counter⟩ := by
    simp [separate, adjustImplicit, hinside, hends, Kind.isFunction]
  rw [hopened, hwritten]
  generalize hp : (⟨some (.paren c), root.push "(", [], implicit, counter⟩ : Progress) = p
  have hprevious : (⟨some (.function name), root.push "(", [], implicit + 1, counter⟩ : Progress) =
      { p.owing with previous := some (.function name) } := by
    rw [← hp]
    rfl
  rw [hprevious, apply_setPrevious, apply_owing hends]
  rfl

/-! ## Before an operator or closing paren -/

theorem close_of_sums_nil (h : p.sums = []) :
    p.close o = { p with root := p.root.push (repeated p.implicit ")") } := by
  obtain ⟨previous, root, sums, implicit, counter⟩ := p
  obtain rfl : sums = [] := h
  simp [close, closeSums, settle, push, modifyFrame]

theorem meaning_rightParen {d : Char} (hclose : isLeftParen d = false) :
    (Node.paren d).meaning o = Node.literal ")" := by
  simp [Node.meaning, hclose]

/-- What ends an argument is text of its own. -/
theorem meaning_of_endsArgument (h : node.kind.endsArgument = true) :
    ∃ text, node.meaning o = Node.literal text := by
  cases node <;> simp only [Node.kind, Kind.endsArgument, Kind.isBinary, Kind.isRightParen,
    Bool.or_self, Bool.false_or, Bool.false_eq_true] at h
  · exact ⟨_, rfl⟩
  · exact ⟨_, rfl⟩

/-- The closing paren of an argument is written, or else comes with what ends the argument. -/
theorem finish_closing {rest : List Node} {d : Char} (hclose : isLeftParen d = false)
    (hsums : p.sums = []) (hfunction : p.previous.any Kind.isFunction = false)
    (hrest : ∀ node ∈ rest.head?, node.kind.endsArgument = true) :
    (Node.writeAll o rest p.owing).finish o = (Node.writeAll o (.paren d :: rest) p).finish o := by
  have hcloses : (Node.paren d).kind.endsArgument = true := by
    simp [Node.kind, Kind.endsArgument, Kind.isRightParen, hclose]
  have howing : p.owing.close o =
      { p.owing with root := p.root.push (repeated (p.implicit + 1) ")") } :=
    close_of_sums_nil hsums
  have hparen : p.advance o (Node.paren d).kind ((Node.paren d).meaning o) =
      ⟨some (.paren d), (p.root.push (repeated p.implicit ")")).push ")", [], 0, p.counter⟩ := by
    rw [meaning_rightParen hclose, advance_of_endsArgument hcloses hfunction (by simp [hsums]),
      close_of_sums_nil hsums]
    rfl
  have hregrouped := Frame.regrouped_push p.root p.implicit
  rw [Node.writeAll, hparen]
  cases rest with
  | nil =>
    rw [Node.writeAll, Node.writeAll, finish_eq, finish_eq, howing, close_of_closed]
    simp only [hregrouped.finish]
    rfl
  | cons node rest =>
    have hends : node.kind.endsArgument = true := hrest node rfl
    obtain ⟨text, htext⟩ := meaning_of_endsArgument (o := o) hends
    have hrelated : Regrouped (p.owing.advance o node.kind (node.meaning o))
        ((⟨some (.paren d), (p.root.push (repeated p.implicit ")")).push ")", [], 0, p.counter⟩ :
          Progress).advance o node.kind (node.meaning o)) := by
      have hbefore : p.owing.previous.any Kind.isFunction = false := hfunction
      have hnone : ∀ s ∈ p.owing.sums, s.depth = 0 := by simp [owing, hsums]
      rw [htext, advance_of_endsArgument hends hbefore hnone,
        advance_of_endsArgument hends rfl (by simp), howing, close_of_closed]
      exact ⟨rfl, .root [] (hregrouped.push text), rfl, rfl⟩
    exact (hrelated.writeAll (kept_regrouped o) logged_advance logged_advance rest).regrouped_finish

/-- Closing parens write themselves, whatever their shape. -/
theorem finish_rightParens {nodes : List Node} (h : ∀ node ∈ nodes, node.kind.isRightParen = true)
    (hfunction : p.previous.any Kind.isFunction = false) (hdepths : ∀ s ∈ p.sums, s.depth = 0) :
    (Node.writeAll o nodes p).finish o =
      (({ (p.close o).root with
          tokens := List.replicate nodes.length ")" ++ (p.close o).root.tokens } :
        Frame).finish.written o, (p.close o).counter) := by
  induction nodes generalizing p with
  | nil => rfl
  | cons node nodes ih =>
    obtain ⟨hnode, hrest⟩ := List.forall_mem_cons.mp h
    cases node <;> simp only [Node.kind, Kind.isRightParen, Bool.false_eq_true] at hnode
    rename_i c
    have hclose : isLeftParen c = false := by simpa using hnode
    have hends : (Node.paren c).kind.endsArgument = true := by
      simp [Node.kind, Kind.endsArgument, Kind.isRightParen, hclose]
    rw [Node.writeAll, meaning_rightParen hclose,
      advance_of_endsArgument hends hfunction hdepths, ih hrest rfl (by simp), close_of_closed]
    simp [Frame.push, List.replicate_succ']

end Progress

namespace Node

/-- A function name without parens takes what stands behind it, up to the next operator or closing
paren, as if parens stood around that, however deep in other parens the operator or closing paren is.
If nothing but closing parens follows, the function name takes the whole list. -/
theorem compile_bare_function (o : ExprOptions) (name : String) {c d : Char}
    (hopen : isLeftParen c = true) (hclose : isLeftParen d = false) (argument rest : List Node)
    (hne : argument ≠ [])
    (hfirst : ∀ node ∈ argument.head?,
      node.kind.isLeftParen = false ∧ node.kind.isScripts = false)
    (hargument : ∀ node ∈ argument,
      node.kind.endsArgument = false ∧ node.kind.isBig = false)
    (hlast : ∀ node ∈ argument.getLast?, node.kind.isFunction = false)
    (hrest : ∀ node ∈ rest.head?, node.kind.endsArgument = true) (n : Nat) :
    compile o ([function name] ++ argument ++ rest) n =
        compile o ([function name, paren c] ++ argument ++ [paren d] ++ rest) n ∧
      ((∀ node ∈ rest, node.kind.isRightParen = true) →
        compile o ([function name] ++ argument ++ rest) n =
          compile o ([function name, paren c] ++ (argument ++ rest) ++ [paren d]) n) := by
  obtain ⟨first, more, rfl⟩ := List.exists_cons_of_ne_nil hne
  obtain ⟨hleft, hscripts⟩ := hfirst first rfl
  obtain ⟨hends, hmore⟩ := List.forall_mem_cons.mp hargument
  have hname : (Progress.start n).advance o (function name).kind ((function name).meaning o) =
      ⟨some (.function name), Frame.empty.push name, [], 0, n⟩ := by
    rw [Progress.advance_of_not_scripts rfl]
    rfl
  -- What is written before the rest, with parens that are written.
  generalize hp : writeAll o (first :: more)
    ⟨some (.paren c), (Frame.empty.push name).push "(", [], 0, n⟩ = p
  have hsums : p.sums = [] :=
    hp ▸ Progress.sums_writeAll_eq_nil rfl fun node hn => (hargument node hn).2
  have hfunction : p.previous.any Kind.isFunction = false := hp ▸ isFunction_writeAll rfl hlast
  have hbare : ∀ rest, compile o ([function name] ++ first :: more ++ rest) n =
      (writeAll o rest p.owing).finish o := by
    intro rest
    rw [compile, Progress.writeAll_append, List.singleton_append, writeAll, hname, writeAll,
      Progress.advance_argument hopen hleft hscripts hends.1,
      Progress.writeAll_owing fun node hn => (hmore node hn).1, ← hp]
    rfl
  have hwritten : ∀ rest, compile o ([function name, paren c] ++ first :: more ++ rest) n =
      (writeAll o rest p).finish o := by
    intro rest
    rw [compile, Progress.writeAll_append, List.cons_append, writeAll, hname, List.cons_append,
      writeAll, Progress.advance_leftParen hopen, List.nil_append, hp]
  have hparens : (∀ node ∈ rest, node.kind.isRightParen = true) →
      (∀ node ∈ paren d :: rest, node.kind.isRightParen = true) ∧
        ∀ node ∈ rest ++ [paren d], node.kind.isRightParen = true := by
    intro h
    have hd : (paren d).kind.isRightParen = true := by simp [kind, Kind.isRightParen, hclose]
    exact ⟨List.forall_mem_cons.mpr ⟨hd, h⟩, by simpa [or_imp, forall_and] using ⟨h, hd⟩⟩
  constructor
  · rw [List.append_assoc _ [paren d], hbare, hwritten]
    exact Progress.finish_closing hclose hsums hfunction hrest
  · intro hclosing
    rw [hbare, ← List.append_assoc, List.append_assoc _ rest, hwritten,
      Progress.finish_closing hclose hsums hfunction hrest,
      Progress.finish_rightParens (hparens hclosing).1 hfunction (by simp [hsums]),
      Progress.finish_rightParens (hparens hclosing).2 hfunction (by simp [hsums])]
    simp

/-- The sine of a product that ends in parens: sin x(y). -/
theorem compile_bare_sine :
    [atom "x", paren '(', atom "y"] ≠ [] ∧
      compile .standard [function "sin", atom "x", paren '(', atom "y", paren ')'] 0 =
        compile .standard
          [function "sin", paren '(', atom "x", paren '(', atom "y", paren ')', paren ')'] 0 := by
  have hne : [atom "x", paren '(', atom "y"] ≠ [] := by simp
  have hopen : isLeftParen '(' = true := rfl
  have hclose : isLeftParen ')' = false := rfl
  exact ⟨hne, (compile_bare_function .standard "sin" hopen hclose
    [atom "x", paren '(', atom "y"] [paren ')'] hne (by decide) (by decide) (by decide) (by decide)
    0).2 (by decide)⟩

/-- An operator closes the paren behind a function name, also from inside other parens: sin x(a + b)
is written differently with and without parens around the argument. -/
theorem compile_bare_sine_of_operator :
    (compile .standard [function "sin", atom "x", paren '(', atom "a", binary .plus, atom "b",
        paren ')'] 0).1.expr = "sin(x*(a)+b)" ∧
      (compile .standard [function "sin", paren '(', atom "x", paren '(', atom "a", binary .plus,
        atom "b", paren ')', paren ')'] 0).1.expr = "sin(x*(a+b))" := by
  decide +kernel

end Node

end FormulaEditor
