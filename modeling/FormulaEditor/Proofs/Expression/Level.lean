import FormulaEditor.Proofs.Expression.Apart
import FormulaEditor.Proofs.Expression.Argument
import FormulaEditor.Proofs.Expression.Isolation
import FormulaEditor.Proofs.Expression.Steady

/-!
# Lists without sums

Where no sum is open, text goes to the root and nothing asks how accumulators are named. A list
without sums whose parens match becomes a balanced text, and behind an operator or an opening paren
it is written as by itself.
-/

namespace FormulaEditor

/-- No function that calls are written with has parens in its name. -/
structure ExprOptions.CallsParenFree (o : ExprOptions) : Prop where
  power : FormulaEditor.ParenFree o.powerFunction
  factorial : FormulaEditor.ParenFree o.factorialFunction
  logBase : FormulaEditor.ParenFree o.logBaseFunction

/-- The options with accumulators that go by their numbers alone. -/
def ExprOptions.unnamed (o : ExprOptions) : ExprOptions :=
  { o with accumulatorPrefix := "" }

theorem ExprOptions.CallsParenFree.unnamed {o : ExprOptions} (ho : o.CallsParenFree) :
    o.unnamed.ParenFree :=
  ⟨ho.power, ho.factorial, ho.logBase, (by decide : FormulaEditor.ParenFree "")⟩

/-- The node's own text has no parens and is not the sign of an operator. -/
def Node.Named : Node → Prop
  | .atom text => FormulaEditor.ParenFree text ∧ Frame.isBoundary text = false
  | .function name => FormulaEditor.ParenFree name ∧ Frame.isBoundary name = false
  | _ => True

instance : DecidablePred Node.Named
  | .atom text =>
    inferInstanceAs (Decidable (FormulaEditor.ParenFree text ∧ Frame.isBoundary text = false))
  | .function name =>
    inferInstanceAs (Decidable (FormulaEditor.ParenFree name ∧ Frame.isBoundary name = false))
  | .binary _ | .paren _ | .frac _ _ | .radical _ _ | .scripts _ _ | .wrapped _ _ | .big _ _ _ =>
    .isTrue trivial

/-- The parens of the list match and none closes directly behind a function name, its names have no
parens and are no signs, and there are no sums. -/
structure Node.Orderly (nodes : List Node) : Prop where
  matched : (ParenMatches.of (nodes.map kind)).isBalanced = true
  apart : nodes.IsChain fun node next =>
    ¬(node.kind.isFunction = true ∧ next.kind.isRightParen = true)
  named : ∀ node ∈ nodes, node.Named
  sumFree : ∀ node ∈ nodes, node.kind.isBig = false

theorem Node.Named.parenFree {node : Node} (h : node.Named) : node.ParenFree := by
  cases node <;> first | exact h.1 | trivial

namespace Progress

variable {o : ExprOptions} {p : Progress} {kind : Kind} {meaning : Meaning} {node : Node}
  {nodes : List Node} {k j : Nat}

/-! ## Names of accumulators -/

theorem apply_unnamed (h : p.sums = []) :
    p.apply o.unnamed kind meaning = p.apply o kind meaning := by
  obtain ⟨previous, root, sums, implicit, counter⟩ := p
  obtain rfl : sums = [] := h
  rcases meaning with ⟨_ | _, _⟩ | _ | _ | _ <;> rfl

theorem advance_unnamed (h : p.sums = []) :
    p.advance o.unnamed kind meaning = p.advance o kind meaning := by
  have hadjusted : ((p.separate kind).adjustImplicit kind).sums = [] := by
    have hdepths : ((p.separate kind).adjustImplicit kind).sums.map OpenSum.depth =
        (p.separate kind).sums.map OpenSum.depth := depths_adjustImplicit
    rwa [depths_separate, h, List.map_nil, List.map_eq_nil_iff] at hdepths
  unfold advance
  simp only [apply_unnamed hadjusted]
  rfl

theorem writeAll_unnamed (h : p.sums = []) (hbig : ∀ node ∈ nodes, node.kind.isBig = false)
    (hm : ∀ node ∈ nodes, node.meaning o.unnamed = node.meaning o) :
    Node.writeAll o.unnamed nodes p = Node.writeAll o nodes p := by
  induction nodes generalizing p with
  | nil => rfl
  | cons node nodes ih =>
    obtain ⟨hnode, hrest⟩ := List.forall_mem_cons.mp hbig
    obtain ⟨hmeaning, hm⟩ := List.forall_mem_cons.mp hm
    rw [Node.writeAll, Node.writeAll, hmeaning, advance_unnamed h]
    exact ih (sums_advance_eq_nil h hnode) hrest hm

theorem finish_unnamed (h : p.sums = []) : p.finish o.unnamed = p.finish o := by
  obtain ⟨previous, root, sums, implicit, counter⟩ := p
  obtain rfl : sums = [] := h
  rfl

end Progress

namespace Node

variable {o : ExprOptions} {nodes : List Node}

theorem meaning_unnamed {node : Node}
    (h : ∀ l ∈ node.lists, compile o.unnamed l = compile o l) :
    node.meaning o.unnamed = node.meaning o := by
  unfold compile at h
  cases made h <;> simp only [meaning, *]

/-- Without sums, the name of accumulators makes no difference. -/
theorem SumFree.compile_unnamed (h : SumFree nodes) : compile o.unnamed nodes = compile o nodes := by
  induction h with
  | @intro nodes here _ ih =>
    have hm : ∀ node ∈ nodes, node.meaning o.unnamed = node.meaning o := fun node hn =>
      meaning_unnamed (ih node hn)
    funext n
    rw [compile, compile, Progress.writeAll_unnamed rfl here hm,
      Progress.finish_unnamed (Progress.sums_writeAll_eq_nil rfl here)]

/-! ## Texts of their own -/

/-- Nothing is stranded where there are no sums. -/
theorem strandsFrom_eq_false {m : Margin} (hm : m.depths = [])
    (h : ∀ node ∈ nodes, node.kind.isBig = false) : strandsFrom m nodes = false := by
  induction nodes generalizing m with
  | nil => rfl
  | cons node nodes ih =>
    obtain ⟨hnode, hrest⟩ := List.forall_mem_cons.mp h
    have hnext : (m.next node).depths = [] := by
      unfold Margin.next Margin.depthsBehind
      split
      · exact hm
      · simp [hm, hnode]
    rw [strandsFrom, ih hnext hrest, Bool.or_false]
    simp [Margin.strands, hnode, hm]

theorem Orderly.even (h : Orderly nodes) : Node.Even o nodes where
  matched := h.matched
  strands := strandsFrom_eq_false rfl h.sumFree
  parenFree node hn := (h.named node hn).parenFree
  loopBalanced node hn := by
    have hbig := h.sumFree node hn
    cases node with
    | big => cases hbig
    | _ => trivial

variable (h : EveryList Orderly nodes)

include h

theorem EveryList.sumFree : SumFree nodes :=
  h.mono fun _ h => h.sumFree

/-- Orderly lists become texts with balanced parens. -/
theorem EveryList.even (ho : o.CallsParenFree) : Compilation.Even (compile o nodes) := by
  rw [← h.sumFree.compile_unnamed]
  exact compile_even ho.unnamed (h.mono fun _ h => h.even)

theorem EveryList.fits (ho : o.CallsParenFree) : ∀ node ∈ nodes, (node.meaning o).Fits node.kind := by
  intro node hn
  have heven : Node.Even o nodes := h.here.even
  exact meaning_fits (heven.parenFree node hn) (heven.loopBalanced node hn) fun _ hl =>
    (h.inside hn hl).even ho

theorem EveryList.steady : ∀ node ∈ nodes, (node.meaning o).Steady := fun node hn =>
  meaning_steady (h.here.sumFree node hn) fun _ hl => (h.inside hn hl).sumFree.steady

end Node

theorem Frame.closingExcess_of_leads {s : String} {k j : Nat} (h : Leads s k j) :
    closingExcess s = (k : Int) - j := by
  have hcount := (openAfter_eq_some_iff.mp h).1
  rw [closingExcess_eq]
  omega

/-! ## Text in the root -/

namespace Progress

variable {o : ExprOptions} {p : Progress} {node : Node} {nodes : List Node} {base : Frame}
  {before : Option Kind} {n k j : Nat}

/-- No sum is open, there are no statements, and of the parens that nodes wrote `k` are open. The
next accumulator gets number `n`. -/
structure Level (n k : Nat) (p : Progress) : Prop where
  steady : Steady n n p p
  root : p.root.Holds (k + p.implicit)
  logged : p.Logged

theorem level_start (n : Nat) : (start n).Level n 0 :=
  ⟨.intro none 0 rfl, Frame.holds_empty, logged_start n⟩

namespace Level

theorem sums (h : p.Level n k) : p.sums = [] := by
  cases h.steady
  rfl

theorem body (h : p.Level n k) : p.root.body = "" := by
  cases h.steady
  assumption

theorem counter (h : p.Level n k) : p.counter = n := by
  cases h.steady
  rfl

theorem rooted (h : p.Level n k) : Rooted p.root p.implicit p.sums k := by
  have htext := Frame.closingExcess_of_leads h.root.text
  rw [Frame.closingExcess_join] at htext
  refine ⟨.inl h.body, k, by simp [h.sums, OpenSum.depths], ?_⟩
  rw [if_pos h.sums, Frame.excess]
  omega

theorem advance (ho : o.ParenFree) (h : p.Level n k) (hbig : node.kind.isBig = false)
    (hfit : (node.meaning o).Fits node.kind) (hsteady : (node.meaning o).Steady)
    (hj : openAfter Kind.isLeftParen Kind.isRightParen k [node.kind] = some j) :
    (p.advance o node.kind (node.meaning o)).Level n j := by
  have hm : p.At ⟨p.previous, true, []⟩ := ⟨rfl, fun _ => rfl, by simp [h.sums]⟩
  have hstrands : Margin.strands ⟨p.previous, true, []⟩ node.kind = false := by
    simp [Margin.strands, hbig]
  have hstacked : Stacked p.root p.implicit p.sums k := by
    rw [h.sums]
    exact h.root
  have hnext := stacked_advance ho hstacked h.logged hm hstrands hj hfit
  rw [sums_advance_eq_nil h.sums hbig] at hnext
  exact ⟨h.steady.advance _ hsteady, hnext, logged_advance⟩

/-- A list is written level, and the same with text in front if an operand begins behind that
text. -/
theorem writeAll (ho : o.ParenFree) (hbase : base.EndsOperand) (h : p.Level n k)
    (hbefore : Agree before p.previous) (hbig : ∀ node ∈ nodes, node.kind.isBig = false)
    (hfit : ∀ node ∈ nodes, (node.meaning o).Fits node.kind)
    (hsteady : ∀ node ∈ nodes, (node.meaning o).Steady)
    (hj : openAfter Kind.isLeftParen Kind.isRightParen k (nodes.map Node.kind) = some j) :
    (Node.writeAll o nodes p).Level n j ∧ ∃ after, Agree after (Node.writeAll o nodes p).previous ∧
      Node.writeAll o nodes (p.onto base before) = (Node.writeAll o nodes p).onto base after := by
  induction nodes generalizing p before k with
  | nil =>
    obtain rfl : k = j := by simpa [openAfter] using hj
    exact ⟨h, before, hbefore, rfl⟩
  | cons node nodes ih =>
    obtain ⟨hnode, hbig⟩ := List.forall_mem_cons.mp hbig
    obtain ⟨hnodefit, hfit⟩ := List.forall_mem_cons.mp hfit
    obtain ⟨hnodesteady, hsteady⟩ := List.forall_mem_cons.mp hsteady
    rw [List.map_cons, ← List.singleton_append, openAfter_append] at hj
    obtain ⟨i, hi, hj⟩ := Option.bind_eq_some_iff.mp hj
    rw [Node.writeAll, Node.writeAll, advance_onto hbase hbefore h.rooted h.logged]
    exact ih (h.advance ho hnode hnodefit hnodesteady hi) (.inl rfl) hbig hfit hsteady hj

/-- Closed parens behind function names leave a balanced text. -/
theorem close (h : p.Level n 0) : (p.close o).root.Holds 0 ∧ (p.close o).root.body = "" ∧
    (p.close o).counter = n := by
  have hholds := h.root
  have hbody := h.body
  have hcounter := h.counter
  have hsums := h.sums
  obtain ⟨previous, root, sums, implicit, counter⟩ := p
  obtain rfl : sums = [] := hsums
  have hclose : Progress.close o ⟨previous, root, [], implicit, counter⟩ =
      ⟨previous, root.push (repeated implicit ")"), [], implicit, counter⟩ := by
    simp [Progress.close, closeSums, settle, push, modifyFrame]
  rw [hclose]
  exact ⟨hholds.push (leads_repeated _ 0), Frame.body_push.trans hbody, hcounter⟩

end Level

end Progress

/-- Behind an operator or opening paren an orderly list is written as by itself. -/
theorem Node.EveryList.writeAll_behind {o : ExprOptions} {nodes : List Node} {base : Frame}
    {kind : Kind} (h : EveryList Orderly nodes) (ho : o.CallsParenFree) (hbase : base.EndsOperand)
    (hkind : Progress.beginsOperand (some kind) = true) (n : Nat) :
    (writeAll o nodes (.start n)).Level n 0 ∧
      ∃ after, Progress.Agree after (writeAll o nodes (.start n)).previous ∧
        writeAll o nodes ⟨some kind, base, [], 0, n⟩ =
          (writeAll o nodes (.start n)).onto base after := by
  have hunnamed : ∀ p : Progress, p.sums = [] → writeAll o.unnamed nodes p = writeAll o nodes p :=
    fun p hp => Progress.writeAll_unnamed hp h.here.sumFree fun node hn =>
      meaning_unnamed fun l hl => (h.inside hn hl).sumFree.compile_unnamed
  have honto : (⟨some kind, base, [], 0, n⟩ : Progress) =
      (Progress.start n).onto base (some kind) := by
    simp [Progress.onto, Progress.start, Frame.empty_onto]
  have hwritten := (Progress.level_start n).writeAll ho.unnamed hbase
    (.inr ⟨hkind, rfl⟩) h.here.sumFree (h.fits (o := o.unnamed) ⟨ho.power, ho.factorial, ho.logBase⟩)
    h.steady (openAfter_of_isBalanced h.here.matched)
  rwa [← honto, hunnamed _ rfl, hunnamed _ rfl] at hwritten

end FormulaEditor
