import FormulaEditor.Proofs.Expression.Excess
import FormulaEditor.Proofs.Expression.Statements

/-!
# Integers as floats, early or late

Integers are written as floats in every list by itself, and then again in the lists around it. It
would do to write them so once, in the finished expression: wherever the text of a list goes, signs
stand on either side of it, so what is around it does not tell whether its integers are floats yet.
-/

namespace FormulaEditor

variable {o : ExprOptions} {s t : String}

/-! ## Alike in every part -/

/-- The texts of two expressions are alike, and what stands before them are statements. -/
structure Expression.Alike (e f : Expression) : Prop where
  body : Text.Alike e.body f.body
  statements : Statements f.body
  expr : Text.Alike e.expr f.expr

/-- The texts in two frames are alike, token by token. -/
structure Frame.Alike (f g : Frame) : Prop where
  body : Text.Alike f.body g.body
  statements : Statements g.body
  tokens : List.Forall₂ Text.Alike f.tokens g.tokens

/-- Both compile to expressions that are alike, and number accumulators in the same way. -/
def Compilation.Alike (c d : Compilation) : Prop :=
  ∀ n, (c n).1.Alike (d n).1 ∧ (c n).2 = (d n).2

/-- The first compiles to the expression of the second with its integers as floats. -/
def Compilation.Promotes (early late : Compilation) : Prop :=
  ∀ n, early n = ((late n).1.promoteIntegers, (late n).2) ∧ Statements (late n).1.body

/-- The open sums have the same sign and depth, limits that differ in how integers are written, and
frames that are alike. -/
structure OpenSum.Alike (s t : OpenSum) : Prop where
  op : s.op = t.op
  depth : s.depth = t.depth
  top : Compilation.Promotes s.top t.top
  bottom : Compilation.Promotes s.bottom t.bottom
  frame : s.frame.Alike t.frame

/-- The expressions in the making differ in how integers are written, and nowhere else. -/
structure Progress.Alike (p q : Progress) : Prop where
  previous : p.previous = q.previous
  root : p.root.Alike q.root
  sums : List.Forall₂ OpenSum.Alike p.sums q.sums
  implicit : p.implicit = q.implicit
  counter : p.counter = q.counter

/-- The meanings differ in how integers are written, and nowhere else. -/
inductive Meaning.Alike : Meaning → Meaning → Prop
  | piece {c d : Compilation} (h : Compilation.Alike c d) : Alike (.piece c) (.piece d)
  | bang : Alike .bang .bang
  | big {op : BigOp} {top top' bottom bottom' : Compilation} (htop : Compilation.Promotes top top')
    (hbottom : Compilation.Promotes bottom bottom') :
    Alike (.big op top bottom) (.big op top' bottom')
  | scripts {exponent exponent' base base' : Option Compilation}
    (hexponent : Option.Rel Compilation.Promotes exponent exponent')
    (hbase : Option.Rel Compilation.Promotes base base') :
    Alike (.scripts exponent base) (.scripts exponent' base')

/-- The options with integers written as floats, or left as they are. -/
def ExprOptions.promoting (o : ExprOptions) (promotes : Bool) : ExprOptions :=
  { o with promotesIntegers := promotes }

/-! ## Frames -/

namespace Frame

variable {f g : Frame} {e e' : Expression}

theorem closingExcess_alike (h : Text.Alike s t) : closingExcess s = closingExcess t := by
  rw [← closingExcess_promoteIntegers, h.promoteIntegers_eq, closingExcess_promoteIntegers]

theorem isBoundary_alike (h : Text.Alike s t) : isBoundary s = isBoundary t := by
  have hsign : ∀ c, Text.isBreak c = true →
      (s == String.singleton c) = (t == String.singleton c) := by
    intro c hc
    rw [Bool.eq_iff_iff, beq_iff_eq, beq_iff_eq, h.eq_singleton_iff hc]
  have hplus := hsign '+' (by decide +kernel)
  have hminus := hsign '-' (by decide +kernel)
  have htimes := hsign '*' (by decide +kernel)
  have hequals := hsign '=' (by decide +kernel)
  have hsigns : isBoundary s = (s == String.singleton '+' || s == String.singleton '-' ||
      s == String.singleton '*' || s == String.singleton '=') := rfl
  rw [hsigns, hplus, hminus, htimes, hequals]
  rfl

theorem operandLength_alike {tokens tokens' : List String} (depth : Int)
    (h : List.Forall₂ Text.Alike tokens tokens') :
    operandLength depth tokens = operandLength depth tokens' := by
  induction h generalizing depth with
  | nil => rfl
  | cons htoken _ ih =>
    simp only [operandLength, closingExcess_alike htoken, isBoundary_alike htoken, ih]

theorem alike_empty : Alike .empty .empty :=
  ⟨.refl _, .inl rfl, .nil⟩

namespace Alike

theorem push (h : f.Alike g) (ht : Text.Alike s t) : (f.push s).Alike (g.push t) := by
  unfold Frame.push
  rw [ht.isEmpty_eq]
  split
  · exact h
  · exact ⟨h.body, h.statements, .cons ht h.tokens⟩

theorem pushBody (h : f.Alike g) (hs : Text.Alike s t) (ht : Statements t) :
    (f.pushBody s).Alike (g.pushBody t) :=
  ⟨h.body.append hs, h.statements.append ht, h.tokens⟩

theorem add (h : f.Alike g) (he : e.Alike e') : (f.add e).Alike (g.add e') :=
  (h.pushBody he.body he.statements).push he.expr

theorem pop (h : f.Alike g) : f.pop.Alike g.pop := by
  refine ⟨h.body, h.statements, ?_⟩
  simpa [Frame.pop] using List.forall₂_drop 1 h.tokens

theorem wrapOperand (h : f.Alike g) (before : String) (hs : Text.Alike s t) :
    (f.wrapOperand before s).Alike (g.wrapOperand before t) := by
  refine ⟨h.body, h.statements, ?_⟩
  simp only [Frame.wrapOperand, operandLength_alike 0 h.tokens]
  exact .cons hs (List.rel_append (List.forall₂_take _ h.tokens)
    (.cons (.refl before) (List.forall₂_drop _ h.tokens)))

theorem finish (h : f.Alike g) : f.finish.Alike g.finish :=
  ⟨h.body, h.statements, .join (List.rel_reverse h.tokens)⟩

end Alike

end Frame

/-! ## What nodes stand for -/

@[simp] theorem Expression.promoteIntegers_promoteIntegers (e : Expression) :
    e.promoteIntegers.promoteIntegers = e.promoteIntegers := by
  simp [promoteIntegers]

theorem Expression.alike_promoteIntegers {e : Expression} (h : Statements e.body) {s t : String}
    (hexpr : Text.Alike s t) : Expression.Alike ⟨e.promoteIntegers.body, s⟩ ⟨e.body, t⟩ :=
  ⟨h.alike, h, hexpr⟩

/-- Expressions that are alike are written as one, with floats early or late. -/
theorem Expression.Alike.written {e f : Expression} (h : e.Alike f) :
    e.written (o.promoting true) = (f.written (o.promoting false)).promoteIntegers := by
  have heq : e.promoteIntegers = f.promoteIntegers := by
    rw [promoteIntegers, h.body.promoteIntegers_eq, h.expr.promoteIntegers_eq]
    rfl
  simpa [Expression.written, ExprOptions.promoting] using heq

namespace Compilation

variable {c d c' d' : Compilation}

theorem alike_pure (s : String) : Alike (fun n => (.pure s, n)) fun n => (.pure s, n) := fun _ =>
  ⟨⟨.refl _, .inl rfl, .refl _⟩, rfl⟩

namespace Promotes

/-- In front of what is written between signs goes a name. -/
theorem call (h : Promotes c d) (name : String) :
    Compilation.Alike (Node.call name c) (Node.call name d) := by
  intro n
  obtain ⟨heq, hbody⟩ := h n
  have hparens : Text.Alike ("(" ++ (d n).1.promoteIntegers.expr ++ ")")
      ("(" ++ (d n).1.expr ++ ")") :=
    Text.alike_between (by decide +kernel) (by decide +kernel) _
  simp only [Node.call, heq, and_true]
  refine Expression.alike_promoteIntegers hbody ?_
  simpa only [String.append_assoc] using (Text.Alike.refl name).append hparens

theorem squareRoot (h : Promotes c d) :
    Compilation.Alike (Node.squareRoot c) (Node.squareRoot d) :=
  h.call "sqrt"

theorem quotient (h : Promotes c d) (h' : Promotes c' d') :
    Compilation.Alike (Node.quotient c c') (Node.quotient d d') := by
  intro n
  obtain ⟨heq, hbody⟩ := h n
  obtain ⟨heq', hbody'⟩ := h' (d n).2
  have hparens : ∀ e : Expression,
      Text.Alike ("(" ++ e.promoteIntegers.expr ++ ")") ("(" ++ e.expr ++ ")") := fun e =>
    Text.alike_between (by decide +kernel) (by decide +kernel) e.expr
  have hsign : (")/(" : String) = ")" ++ "/" ++ "(" := rfl
  simp only [Node.quotient, heq, heq', and_true]
  refine ⟨hbody.alike.append hbody'.alike, hbody.append hbody', ?_⟩
  rw [hsign]
  simpa only [String.append_assoc] using
    ((hparens (d n).1).append (.refl "/")).append (hparens (d' (d n).2).1)

theorem indexedRoot (h : Promotes c d) (h' : Promotes c' d') :
    Compilation.Alike (Node.indexedRoot c c') (Node.indexedRoot d d') := by
  intro n
  obtain ⟨heq', hbody'⟩ := h' n
  obtain ⟨heq, hbody⟩ := h (d' n).2
  have hradicand : Text.Alike ("(" ++ (d' n).1.promoteIntegers.expr ++ ", ")
      ("(" ++ (d' n).1.expr ++ ", ") :=
    Text.alike_between (by decide +kernel) (by decide +kernel) _
  have hindex : Text.Alike ("(" ++ (d (d' n).2).1.promoteIntegers.expr ++ "))")
      ("(" ++ (d (d' n).2).1.expr ++ "))") :=
    Text.alike_between (by decide +kernel) (by decide +kernel) _
  have hpow : ("pow(" : String) = "pow" ++ "(" := rfl
  have hsign : (", 1.0/(" : String) = ", " ++ "1.0/" ++ "(" := rfl
  simp only [Node.indexedRoot, heq, heq', and_true]
  refine ⟨hbody'.alike.append hbody.alike, hbody'.append hbody, ?_⟩
  rw [hpow, hsign]
  simpa only [String.append_assoc] using
    (((Text.Alike.refl "pow").append hradicand).append (.refl "1.0/")).append hindex

end Promotes

end Compilation

/-- A finished sum writes its loop around limits and argument that are alike. -/
theorem OpenSum.Alike.fold {s t : OpenSum} (h : s.Alike t) :
    Compilation.Alike (s.fold (o.promoting true)) (t.fold (o.promoting false)) := by
  intro n
  obtain ⟨hinit, -⟩ := h.bottom n
  obtain ⟨hlast, -⟩ := h.top (t.bottom n).2
  have hargument : s.frame.finish.promoteIntegers = t.frame.finish.promoteIntegers := by
    rw [Expression.promoteIntegers, h.frame.finish.body.promoteIntegers_eq,
      h.frame.finish.expr.promoteIntegers_eq]
    rfl
  simp only [OpenSum.fold, hinit, hlast, h.op]
  refine ⟨⟨fun before behind => ?_, statements_loopText, .refl _⟩, rfl⟩
  rw [promoteIntegers_loopText, promoteIntegers_loopText, hargument,
    Expression.promoteIntegers_promoteIntegers, Expression.promoteIntegers_promoteIntegers]
  rfl

/-! ## Steps -/

namespace Progress

variable {p q : Progress} {kind : Kind}

theorem alike_start (n : Nat) : (start n).Alike (start n) :=
  ⟨rfl, Frame.alike_empty, .nil, rfl, rfl⟩

namespace Alike

theorem withCounter (h : p.Alike q) (n : Nat) :
    Progress.Alike { p with counter := n } { q with counter := n } :=
  { h with counter := rfl }

theorem modifyFrame (h : p.Alike q) {change change' : Frame → Frame}
    (hchange : ∀ f g : Frame, f.Alike g → (change f).Alike (change' g)) :
    (p.modifyFrame change).Alike (q.modifyFrame change') := by
  obtain ⟨_, _, sums, _, _⟩ := p
  obtain ⟨_, _, sums', _, _⟩ := q
  obtain ⟨hprevious, hroot, hsums, himplicit, hcounter⟩ := h
  cases hsums with
  | nil => exact ⟨hprevious, hchange _ _ hroot, .nil, himplicit, hcounter⟩
  | cons hs hrest =>
    exact ⟨hprevious, hroot, .cons { hs with frame := hchange _ _ hs.frame } hrest, himplicit,
      hcounter⟩

theorem push (h : p.Alike q) (token : String) : (p.push token).Alike (q.push token) :=
  h.modifyFrame fun _ _ hf => hf.push (.refl token)

theorem add (h : p.Alike q) {e f : Expression} (he : e.Alike f) : (p.add e).Alike (q.add f) :=
  h.modifyFrame fun _ _ hf => hf.add he

theorem separate (h : p.Alike q) (kind : Kind) : (p.separate kind).Alike (q.separate kind) := by
  unfold Progress.separate
  rw [h.previous]
  split
  · exact h.push "*"
  · exact h

theorem adjustImplicit (h : p.Alike q) (kind : Kind) :
    (p.adjustImplicit kind).Alike (q.adjustImplicit kind) := by
  unfold Progress.adjustImplicit Progress.closeImplicit
  rw [h.previous, h.implicit]
  split
  · exact { h.push "(" with implicit := rfl }
  · split
    · exact { h.push _ with implicit := rfl }
    · exact h

theorem settle {e f : Expression} {root root' : Frame} {sums sums' : List OpenSum}
    (he : e.Alike f) (hroot : root.Alike root') (hsums : List.Forall₂ OpenSum.Alike sums sums')
    (balancedOnly : Bool) (n : Nat) :
    List.Forall₂ OpenSum.Alike (settle (o.promoting true) balancedOnly e root n sums).1
        (settle (o.promoting false) balancedOnly f root' n sums').1 ∧
      (settle (o.promoting true) balancedOnly e root n sums).2.1.Alike
        (settle (o.promoting false) balancedOnly f root' n sums').2.1 ∧
      (settle (o.promoting true) balancedOnly e root n sums).2.2 =
        (settle (o.promoting false) balancedOnly f root' n sums').2.2 := by
  induction hsums generalizing e f n with
  | nil => exact ⟨.nil, hroot.add he, rfl⟩
  | @cons s t rest rest' hs hrest ih =>
    have htaken :
        OpenSum.Alike { s with frame := s.frame.add e } { t with frame := t.frame.add f } :=
      { hs with frame := hs.frame.add he }
    have hopen : (balancedOnly && s.depth != 0) = (balancedOnly && t.depth != 0) := by rw [hs.depth]
    rw [settle_cons, settle_cons, hopen]
    split
    · exact ⟨.cons htaken hrest, hroot, rfl⟩
    · rw [(htaken.fold n).2]
      exact ih (htaken.fold n).1 _

theorem closeSums (h : p.Alike q) (balancedOnly : Bool) :
    (p.closeSums (o.promoting true) balancedOnly).Alike
      (q.closeSums (o.promoting false) balancedOnly) := by
  have hblank : Expression.Alike .blank .blank := ⟨.refl _, .inl rfl, .refl _⟩
  obtain ⟨hsums, hroot, hcounter⟩ := settle (o := o) hblank h.root h.sums balancedOnly p.counter
  rw [h.counter] at hsums hroot hcounter
  unfold Progress.closeSums
  rw [h.counter]
  exact ⟨h.previous, hroot, hsums, h.implicit, hcounter⟩

theorem countParen (h : p.Alike q) (kind : Kind) :
    (p.countParen kind).Alike (q.countParen kind) := by
  obtain ⟨_, _, sums, _, _⟩ := p
  obtain ⟨_, _, sums', _, _⟩ := q
  obtain ⟨hprevious, hroot, hsums, himplicit, hcounter⟩ := h
  rw [countParen_eq, countParen_eq]
  cases hsums with
  | nil => exact ⟨hprevious, hroot, .nil, himplicit, hcounter⟩
  | cons hs hrest =>
    have hdepth := congrArg (openBehind kind) hs.depth
    exact ⟨hprevious, hroot, .cons { hs with depth := hdepth } hrest, himplicit, hcounter⟩

theorem emit (h : p.Alike q) (kind : Kind) {text text' : Compilation}
    (ht : Compilation.Alike text text') : (p.emit (o.promoting true) kind text).Alike
      (q.emit (o.promoting false) kind text') := by
  have hbefore : (p.beforeText (o.promoting true) kind).Alike
      (q.beforeText (o.promoting false) kind) := by
    unfold beforeText
    split
    · exact h.closeSums true
    · exact h
  obtain ⟨he, hcounter⟩ := ht (q.beforeText (o.promoting false) kind).counter
  rw [emit_eq, emit_eq, hbefore.counter, hcounter]
  exact ((hbefore.add he).withCounter _).countParen kind

theorem raise (h : p.Alike q) {exponent exponent' : Compilation}
    (he : Compilation.Promotes exponent exponent') : (p.raise (o.promoting true) exponent).Alike
      (q.raise (o.promoting false) exponent') := by
  obtain ⟨heq, hbody⟩ := he q.counter
  have hexpr : Text.Alike (", (" ++ (exponent' q.counter).1.promoteIntegers.expr ++ "))")
      (", (" ++ (exponent' q.counter).1.expr ++ "))") :=
    Text.alike_between (by decide +kernel) (by decide +kernel) _
  rw [raise_eq, raise_eq, h.counter, heq]
  have hraised := h.modifyFrame fun _ _ hf =>
    (hf.wrapOperand (o.powerFunction ++ "(") hexpr).pushBody hbody.alike hbody
  exact hraised.withCounter _

theorem takeBase (h : p.Alike q) {base base' : Compilation}
    (hb : Compilation.Promotes base base') : (p.takeBase (o.promoting true) base).Alike
      (q.takeBase (o.promoting false) base') := by
  obtain ⟨heq, hbody⟩ := hb q.counter
  have hexpr : Text.Alike ("(" ++ (base' q.counter).1.promoteIntegers.expr ++ ",")
      ("(" ++ (base' q.counter).1.expr ++ ",") :=
    Text.alike_between (by decide +kernel) (by decide +kernel) _
  have hcall := (Text.Alike.refl o.logBaseFunction).append hexpr
  simp only [← String.append_assoc] at hcall
  have hpopped : (p.modifyFrame Frame.pop).Alike (q.modifyFrame Frame.pop) :=
    h.modifyFrame fun _ _ hf => hf.pop
  rw [takeBase_eq, takeBase_eq, h.counter, h.implicit, heq]
  exact { hpopped.add (Expression.alike_promoteIntegers hbody hcall) with
    previous := rfl
    implicit := rfl
    counter := rfl }

theorem apply (h : p.Alike q) (kind : Kind) {m m' : Meaning} (hm : m.Alike m') :
    (p.apply (o.promoting true) kind m).Alike (q.apply (o.promoting false) kind m') := by
  cases hm with
  | piece ht => exact h.emit kind ht
  | bang => exact h.modifyFrame fun _ _ hf => hf.wrapOperand _ (.refl ")")
  | big htop hbottom =>
    exact { h with sums := .cons ⟨rfl, rfl, htop, hbottom, Frame.alike_empty⟩ h.sums }
  | scripts hexponent _ =>
    cases hexponent with
    | none => exact h
    | some hexponent => exact h.raise hexponent

theorem afterLog (h : p.Alike q) : p.afterLog = q.afterLog := by
  rw [Progress.afterLog, Progress.afterLog, h.previous]

/-- What is alike stays alike behind a node. -/
theorem advance (h : p.Alike q) (kind : Kind) {m m' : Meaning} (hm : m.Alike m') :
    (p.advance (o.promoting true) kind m).Alike (q.advance (o.promoting false) kind m') := by
  have happly := ((h.separate kind).adjustImplicit kind).apply (o := o) kind hm
  have hother : Progress.Alike
      { ((p.separate kind).adjustImplicit kind).apply (o.promoting true) kind m with
        previous := some kind }
      { ((q.separate kind).adjustImplicit kind).apply (o.promoting false) kind m' with
        previous := some kind } :=
    { happly with previous := rfl }
  unfold Progress.advance
  simp only [afterLog_separate, h.afterLog]
  -- Both take the scripts as a base, or neither does.
  cases hm with
  | piece _ => exact hother
  | bang => exact hother
  | big _ _ => exact hother
  | scripts _ hbase =>
    cases hbase with
    | none => exact hother
    | some hbase =>
      cases q.afterLog with
      | true => exact (h.separate kind).takeBase hbase
      | false => exact hother

/-- Written early and late, the finished expression is the same. -/
theorem finish (h : p.Alike q) : p.finish (o.promoting true) =
      ((q.finish (o.promoting false)).1.promoteIntegers, (q.finish (o.promoting false)).2) ∧
    Statements (q.finish (o.promoting false)).1.body := by
  have hpush := h.push (repeated p.implicit ")")
  have hclose : (p.close (o.promoting true)).Alike (q.close (o.promoting false)) := by
    unfold close
    rw [← h.implicit]
    exact hpush.closeSums false
  constructor
  · rw [finish_eq, finish_eq, hclose.counter, hclose.root.finish.written]
  · exact hclose.root.statements

end Alike

end Progress

/-! ## Formulas -/

namespace Node

/-- A node stands for the same but for how integers are written, if the lists it holds do. -/
theorem meaning_alike {node : Node} (h : ∀ l ∈ node.lists,
    Compilation.Promotes (compile (o.promoting true) l) (compile (o.promoting false) l)) :
    (node.meaning (o.promoting true)).Alike (node.meaning (o.promoting false)) := by
  cases made h with
  | atom =>
    simp only [meaning]
    split
    · exact .bang
    · exact .piece (Compilation.alike_pure _)
  | binary | function | paren => exact .piece (Compilation.alike_pure _)
  | frac hn hd => exact .piece (hn.quotient hd)
  | squareRoot hr => exact .piece hr.squareRoot
  | indexedRoot hi hr => exact .piece (hi.indexedRoot hr)
  | noScripts => exact .scripts .none .none
  | subscript hs => exact .scripts .none (.some hs)
  | exponent he => exact .scripts (.some he) .none
  | bothScripts he hs => exact .scripts (.some he) (.some hs)
  | wrapped _ ha => exact .piece (ha.call _)
  | big _ ht hb => exact .big ht hb

/-- Written early and late, lists are alike behind nodes that stand for the same. -/
theorem alike_writeAll {nodes : List Node} {p q : Progress}
    (h : ∀ node ∈ nodes,
      (node.meaning (o.promoting true)).Alike (node.meaning (o.promoting false)))
    (hp : p.Alike q) :
    (writeAll (o.promoting true) nodes p).Alike (writeAll (o.promoting false) nodes q) := by
  induction nodes generalizing p q with
  | nil => exact hp
  | cons node nodes ih =>
    obtain ⟨hnode, hrest⟩ := List.forall_mem_cons.mp h
    exact ih hrest (hp.advance node.kind hnode)

/-- A list is written early as it is late, if its nodes stand for the same. -/
theorem promotes_of_meanings {nodes : List Node} (h : ∀ node ∈ nodes,
    (node.meaning (o.promoting true)).Alike (node.meaning (o.promoting false))) :
    Compilation.Promotes (compile (o.promoting true) nodes) (compile (o.promoting false) nodes) :=
  fun n => (alike_writeAll h (Progress.alike_start n)).finish

/-- Every list is written early as it is late. -/
theorem compile_promotes (o : ExprOptions) (nodes : List Node) :
    Compilation.Promotes (compile (o.promoting true) nodes) (compile (o.promoting false) nodes) := by
  have halike : ∀ node : Node,
      (node.meaning (o.promoting true)).Alike (node.meaning (o.promoting false)) :=
    (induction (Q := fun nodes => ∀ node ∈ nodes,
        (node.meaning (o.promoting true)).Alike (node.meaning (o.promoting false)))
      (fun _ ih => meaning_alike fun l hl => promotes_of_meanings (ih l hl))
      (by simp) (fun _ _ hnode hnodes => List.forall_mem_cons.mpr ⟨hnode, hnodes⟩)).1
  exact promotes_of_meanings fun node _ => halike node

/-- How the options want integers written matters in the end only. -/
theorem compile_written (o : ExprOptions) (nodes : List Node) (n : Nat) :
    compile o nodes n = ((compile (o.promoting false) nodes n).1.written o,
      (compile (o.promoting false) nodes n).2) := by
  have ho : o.promoting o.promotesIntegers = o := rfl
  cases hp : o.promotesIntegers with
  | false =>
    rw [hp] at ho
    rw [ho, Expression.written, hp]
    rfl
  | true =>
    have h := (compile_promotes o nodes n).1
    rw [← hp, ho] at h
    rw [h, Expression.written, if_pos hp]

/-- Writing the integers of every list as floats, the innermost first, is writing those of the
finished expression as floats. -/
theorem compile_promoteIntegers (o : ExprOptions) (nodes : List Node) (n : Nat) :
    compile { o with promotesIntegers := true } nodes n =
      ((compile { o with promotesIntegers := false } nodes n).1.promoteIntegers,
        (compile { o with promotesIntegers := false } nodes n).2) :=
  (compile_promotes o nodes n).1

end Node

end FormulaEditor
