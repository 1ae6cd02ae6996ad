import FormulaEditor.Proofs.Expression.Writing
import FormulaEditor.Proofs.Node.Depth

/-!
# Expressions without sums

Only sums need accumulators and loops. A formula without sums becomes a text that depends on no
statements and is the same wherever in a program it stands.
-/

namespace FormulaEditor

variable {o : ExprOptions}

/-- There are no sums or products in the list, at any depth. -/
def Node.SumFree (nodes : List Node) : Prop :=
  Node.EveryNode (fun node => node.kind.isBig = false) nodes

/-- The text is the same whichever number the next accumulator gets, and depends on nothing. -/
def Compilation.Steady (c : Compilation) : Prop :=
  ∃ s, ∀ n, c n = (.pure s, n)

/-- What the node means is the same whichever number the next accumulator gets. -/
inductive Meaning.Steady : Meaning → Prop
  | piece {c : Compilation} (h : c.Steady) : Steady (.piece c)
  | bang : Steady .bang
  | scripts {exponent base : Option Compilation} (hexponent : ∀ c ∈ exponent, c.Steady)
    (hbase : ∀ c ∈ base, c.Steady) : Steady (.scripts exponent base)

namespace Compilation.Steady

variable {c d : Compilation}

theorem call (h : c.Steady) (name : String) : (Node.call name c).Steady := by
  obtain ⟨s, hs⟩ := h
  exact ⟨name ++ "(" ++ s ++ ")", fun n => by simp only [Node.call, hs]; rfl⟩

theorem quotient (h : c.Steady) (h' : d.Steady) : (Node.quotient c d).Steady := by
  obtain ⟨s, hs⟩ := h
  obtain ⟨t, ht⟩ := h'
  exact ⟨"(" ++ s ++ ")/(" ++ t ++ ")", fun n => by simp only [Node.quotient, hs, ht]; rfl⟩

theorem indexedRoot (h : c.Steady) (h' : d.Steady) : (Node.indexedRoot c d).Steady := by
  obtain ⟨s, hs⟩ := h
  obtain ⟨t, ht⟩ := h'
  exact ⟨"pow(" ++ t ++ ", 1.0/(" ++ s ++ "))",
    fun n => by simp only [Node.indexedRoot, hs, ht]; rfl⟩

end Compilation.Steady

theorem Frame.body_add_pure {frame : Frame} {s : String} : (frame.add (.pure s)).body = frame.body := by
  simp [Expression.pure]

theorem Expression.written_of_body {e : Expression} (h : e.body = "") :
    e.written o = .pure (e.written o).expr := by
  have hempty : Text.promoteIntegers "" = "" := rfl
  unfold written
  split
  · simp [promoteIntegers, pure, h, hempty]
  · simp [pure, ← h]

namespace Progress

variable {a b : Nat} {p q : Progress} {m : Meaning}

/-- No sum is open and there are no statements, and only the numbers of the next accumulator are
different. -/
inductive Steady (a b : Nat) : Progress → Progress → Prop
  | intro (previous : Option Kind) {root : Frame} (implicit : Nat) (hbody : root.body = "") :
    Steady a b ⟨previous, root, [], implicit, a⟩ ⟨previous, root, [], implicit, b⟩

namespace Steady

theorem previous_eq (h : Steady a b p q) : p.previous = q.previous := by
  cases h
  rfl

theorem setPrevious (h : Steady a b p q) (previous : Option Kind) :
    Steady a b { p with previous } { q with previous } := by
  cases h with
  | intro _ implicit hbody => exact .intro previous implicit hbody

theorem modifyFrame (h : Steady a b p q) (change : Frame → Frame)
    (hchange : ∀ frame, (change frame).body = frame.body) :
    Steady a b (p.modifyFrame change) (q.modifyFrame change) := by
  cases h with
  | intro previous implicit hbody => exact .intro previous implicit ((hchange _).trans hbody)

theorem push (h : Steady a b p q) (token : String) : Steady a b (p.push token) (q.push token) :=
  h.modifyFrame _ fun _ => Frame.body_push

theorem separate (h : Steady a b p q) (kind : Kind) :
    Steady a b (p.separate kind) (q.separate kind) := by
  unfold Progress.separate
  rw [h.previous_eq]
  split
  · exact h.push "*"
  · exact h

theorem adjustImplicit (h : Steady a b p q) (kind : Kind) :
    Steady a b (p.adjustImplicit kind) (q.adjustImplicit kind) := by
  cases h with
  | intro previous implicit hbody =>
    unfold Progress.adjustImplicit Progress.closeImplicit
    simp only
    split
    · exact .intro previous (implicit + 1) (Frame.body_push.trans hbody)
    · split
      · exact .intro previous 0 (Frame.body_push.trans hbody)
      · exact .intro previous implicit hbody

theorem closeSums (h : Steady a b p q) (balancedOnly : Bool) :
    Steady a b (p.closeSums o balancedOnly) (q.closeSums o balancedOnly) := by
  cases h with
  | intro previous implicit hbody =>
    refine .intro previous implicit ?_
    rwa [Frame.add_blank]

theorem emit (h : Steady a b p q) (kind : Kind) {text : Compilation} (ht : text.Steady) :
    Steady a b (p.emit o kind text) (q.emit o kind text) := by
  obtain ⟨s, hs⟩ := ht
  have hbefore : Steady a b (p.beforeText o kind) (q.beforeText o kind) := by
    unfold beforeText
    split
    · exact h.closeSums true
    · exact h
  simp only [emit_eq, hs]
  generalize p.beforeText o kind = p, q.beforeText o kind = q at hbefore
  cases hbefore with
  | @intro previous root implicit hbody =>
    exact .intro previous implicit (Frame.body_add_pure.trans hbody)

theorem takeBase (h : Steady a b p q) {base : Compilation} (hb : base.Steady) :
    Steady a b (p.takeBase o base) (q.takeBase o base) := by
  obtain ⟨s, hs⟩ := hb
  cases h with
  | @intro previous root implicit hbody =>
    simp only [takeBase_eq, hs]
    exact .intro none (implicit + 1) (Frame.body_add_pure.trans hbody)

theorem raise (h : Steady a b p q) {exponent : Compilation} (he : exponent.Steady) :
    Steady a b (p.raise o exponent) (q.raise o exponent) := by
  obtain ⟨s, hs⟩ := he
  cases h with
  | intro previous implicit hbody =>
    simp only [raise_eq, hs]
    exact .intro previous implicit (congrArg (· ++ "") hbody)

theorem advance (h : Steady a b p q) (kind : Kind) (hm : m.Steady) :
    Steady a b (p.advance o kind m) (q.advance o kind m) := by
  have hlog : p.afterLog = q.afterLog := by rw [afterLog, afterLog, h.previous_eq]
  have hadjusted := (h.separate kind).adjustImplicit kind
  have happly : Steady a b (((p.separate kind).adjustImplicit kind).apply o kind m)
      (((q.separate kind).adjustImplicit kind).apply o kind m) := by
    cases hm with
    | piece ht => exact hadjusted.emit kind ht
    | bang =>
      exact hadjusted.modifyFrame (·.wrapOperand (o.factorialFunction ++ "(") ")")
        fun _ => rfl
    | @scripts exponent base hexponent _ =>
      cases exponent with
      | none => exact hadjusted
      | some exponent => exact hadjusted.raise (hexponent _ rfl)
  unfold Progress.advance
  simp only [afterLog_separate, ← hlog]
  split
  · cases hm with
    | scripts _ hbase => exact (h.separate kind).takeBase (hbase _ rfl)
  · exact happly.setPrevious _

theorem writeAll {nodes : List Node} (h : Steady a b p q)
    (hm : ∀ node ∈ nodes, (node.meaning o).Steady) :
    Steady a b (Node.writeAll o nodes p) (Node.writeAll o nodes q) := by
  induction nodes generalizing p q with
  | nil => exact h
  | cons node nodes ih =>
    obtain ⟨hnode, hrest⟩ := List.forall_mem_cons.mp hm
    exact ih (h.advance node.kind hnode) hrest

theorem finish (h : Steady a b p q) : ∃ s, p.finish o = (.pure s, a) ∧ q.finish o = (.pure s, b) := by
  have hclose : Steady a b (p.close o) (q.close o) := by
    have himplicit : p.implicit = q.implicit := by
      cases h
      rfl
    unfold close
    rw [himplicit]
    exact (h.push _).closeSums false
  simp only [finish_eq]
  generalize p.close o = p, q.close o = q at hclose
  cases hclose with
  | @intro previous root implicit hbody =>
    have hwritten : root.finish.written o = .pure _ := Expression.written_of_body hbody
    exact ⟨_, congrArg (·, a) hwritten, congrArg (·, b) hwritten⟩

end Steady

end Progress

namespace Node

theorem meaning_steady {node : Node} (hsum : node.kind.isBig = false)
    (h : ∀ l ∈ node.lists, Compilation.Steady (compile o l)) : (node.meaning o).Steady := by
  have hpure : ∀ s, Meaning.Steady (literal s) := fun s => .piece ⟨s, fun _ => rfl⟩
  have hsome : ∀ {c : Compilation}, c.Steady → ∀ d ∈ some c, d.Steady := by
    rintro c hc _ ⟨⟩
    exact hc
  cases made h with
  | atom =>
    simp only [meaning]
    split
    · exact .bang
    · exact hpure _
  | binary | function | paren => exact hpure _
  | frac hn hd => exact .piece (hn.quotient hd)
  | squareRoot hr => exact .piece (hr.call "sqrt")
  | indexedRoot hi hr => exact .piece (hi.indexedRoot hr)
  | noScripts => exact .scripts (by simp) (by simp)
  | subscript hs => exact .scripts (by simp) (hsome hs)
  | exponent he => exact .scripts (hsome he) (by simp)
  | bothScripts he hs => exact .scripts (hsome he) (hsome hs)
  | wrapped _ ha => exact .piece (ha.call _)
  | big => cases hsum

/-- Without sums, compiling needs no accumulators. -/
theorem SumFree.steady {nodes : List Node} (h : SumFree nodes) :
    Compilation.Steady (compile o nodes) := by
  induction h with
  | @intro nodes here _ ih =>
    have hm : ∀ node ∈ nodes, (node.meaning o).Steady := fun node hn =>
      meaning_steady (here node hn) (ih node hn)
    have hfinish : ∀ n, ∃ s, compile o nodes 0 = (.pure s, 0) ∧ compile o nodes n = (.pure s, n) :=
      fun n => (Progress.Steady.intro none 0 rfl).writeAll hm |>.finish
    refine ⟨(compile o nodes 0).1.expr, fun n => ?_⟩
    obtain ⟨s, hzero, hn⟩ := hfinish n
    rw [hzero, hn]
    rfl

end Node

end FormulaEditor
