import FormulaEditor.Proofs.Expression.Apart
import FormulaEditor.Proofs.Expression.Related

/-!
# One difference in an expression in the making

Two expressions in the making that differ in one place go on differing in one place, whatever node is
written to both of them. A node that differs in one place makes such a difference, unless it is
scripts that are taken as the base of a logarithm: an exponent beside the base is not written.
-/

namespace FormulaEditor

variable {o w : ExprOptions}

/-! ## What nodes stand for -/

namespace Compilation.Apart

variable {c d : Compilation}

theorem quotient_left (h : c.Apart o d) (denominator : Compilation) :
    (Node.quotient c denominator).Apart o (Node.quotient d denominator) := by
  intro n
  obtain ⟨he, hcounter⟩ := h n
  simp only [Node.quotient, hcounter, and_true]
  have := he.around "" (denominator (d n).2).1.body "(" (")/(" ++ (denominator (d n).2).1.expr ++ ")")
  simpa only [String.empty_append, String.append_assoc] using this

theorem quotient_right (h : c.Apart o d) (numerator : Compilation) :
    (Node.quotient numerator c).Apart o (Node.quotient numerator d) := by
  intro n
  obtain ⟨he, hcounter⟩ := h (numerator n).2
  simp only [Node.quotient, hcounter, and_true]
  have := he.around (numerator n).1.body "" ("(" ++ (numerator n).1.expr ++ ")/(") ")"
  simpa only [String.append_empty, String.append_assoc] using this

theorem indexedRoot_left (h : c.Apart o d) (radicand : Compilation) :
    (Node.indexedRoot c radicand).Apart o (Node.indexedRoot d radicand) := by
  intro n
  obtain ⟨he, hcounter⟩ := h (radicand n).2
  simp only [Node.indexedRoot, hcounter, and_true]
  have := he.around (radicand n).1.body "" ("pow(" ++ (radicand n).1.expr ++ ", 1.0/(") "))"
  simpa only [String.append_empty, String.append_assoc] using this

theorem indexedRoot_right (h : c.Apart o d) (index : Compilation) :
    (Node.indexedRoot index c).Apart o (Node.indexedRoot index d) := by
  intro n
  obtain ⟨he, hcounter⟩ := h n
  simp only [Node.indexedRoot, hcounter, and_true]
  have := he.around "" (index (d n).2).1.body "pow(" (", 1.0/(" ++ (index (d n).2).1.expr ++ "))")
  simpa only [String.empty_append, String.append_assoc] using this

theorem call (h : c.Apart o d) (name : String) : (Node.call name c).Apart o (Node.call name d) := by
  intro n
  obtain ⟨he, hcounter⟩ := h n
  simp only [Node.call, hcounter, and_true]
  have := he.around "" "" (name ++ "(") ")"
  simpa only [String.empty_append, String.append_empty] using this

theorem squareRoot (h : c.Apart o d) : (Node.squareRoot c).Apart o (Node.squareRoot d) :=
  h.call "sqrt"

end Compilation.Apart

/-- An exponent as it is written behind the operand that it raises. -/
def Expression.power (e : Expression) : Expression :=
  ⟨e.body, ", (" ++ e.expr ++ "))"⟩

/-- The meanings differ in one place, a base apart. Neither text is a name or a sign. -/
inductive Meaning.Apart (o : ExprOptions) : Meaning → Meaning → Prop
  | piece {c d : Compilation} (h : c.Apart o d) (hc : ∀ n, ¬ParenFree (c n).1.expr)
    (hd : ∀ n, ¬ParenFree (d n).1.expr) : Apart o (.piece c) (.piece d)
  | top (op : BigOp) {top top' : Compilation} (bottom : Compilation) (h : top.Apart o top') :
    Apart o (.big op top bottom) (.big op top' bottom)
  | bottom (op : BigOp) (top : Compilation) {bottom bottom' : Compilation}
    (h : bottom.Apart o bottom') : Apart o (.big op top bottom) (.big op top bottom')
  | exponent {exponent exponent' : Compilation} (base : Option Compilation)
    (h : ∀ n, (exponent n).1.power.Apart o (exponent' n).1.power ∧
      (exponent n).2 = (exponent' n).2) :
    Apart o (.scripts (some exponent) base) (.scripts (some exponent') base)

/-! ## Sums -/

/-- The open sums differ in one place, in a limit or in the argument. -/
inductive OpenSum.Apart (o : ExprOptions) : OpenSum → OpenSum → Prop
  | top (op : BigOp) {top top' : Compilation} (bottom : Compilation) (depth : Nat) (frame : Frame)
    (h : top.Apart o top') : Apart o ⟨op, top, bottom, depth, frame⟩ ⟨op, top', bottom, depth, frame⟩
  | bottom (op : BigOp) (top : Compilation) {bottom bottom' : Compilation} (depth : Nat)
    (frame : Frame) (h : bottom.Apart o bottom') :
    Apart o ⟨op, top, bottom, depth, frame⟩ ⟨op, top, bottom', depth, frame⟩
  | frame (op : BigOp) (top bottom : Compilation) (depth : Nat) {frame frame' : Frame}
    (h : frame.Apart o frame') :
    Apart o ⟨op, top, bottom, depth, frame⟩ ⟨op, top, bottom, depth, frame'⟩

namespace OpenSum

variable {s t : OpenSum}

theorem Apart.depth_eq (h : s.Apart o t) : s.depth = t.depth := by
  cases h <;> rfl

theorem Apart.setDepth (h : s.Apart o t) (depth : Nat) :
    Apart o { s with depth } { t with depth } := by
  cases h with
  | top op bottom _ frame h => exact .top op bottom depth frame h
  | bottom op top _ frame h => exact .bottom op top depth frame h
  | frame op top bottom _ h => exact .frame op top bottom depth h

/-- What is done to the frame leaves the place where it is. -/
theorem Apart.modify (h : s.Apart o t) (change : Frame → Frame)
    (hchange : s.frame.Apart o t.frame → (change s.frame).Apart o (change t.frame)) :
    Apart o { s with frame := change s.frame } { t with frame := change t.frame } := by
  cases h with
  | top op bottom depth frame h => exact .top op bottom depth (change frame) h
  | bottom op top depth frame h => exact .bottom op top depth (change frame) h
  | frame op top bottom depth h => exact .frame op top bottom depth (hchange h)

/-- The loops of sums that differ are told apart, and their accumulators are the same. -/
theorem Apart.fold (h : s.Apart o t) (n : Nat) : ∃ name body body' n', o.Distinguishes body body' ∧
    s.fold w n = (⟨body, name⟩, n') ∧ t.fold w n = (⟨body', name⟩, n') := by
  cases h with
  | top op bottom depth frame h =>
    obtain ⟨he, hcounter⟩ := h (bottom n).2
    refine ⟨_, _, _, _, distinguishes_of_last he, rfl, ?_⟩
    simp only [OpenSum.fold, hcounter]
    rfl
  | bottom op top depth frame h =>
    obtain ⟨he, hcounter⟩ := h n
    refine ⟨_, _, _, _, distinguishes_of_init he, rfl, ?_⟩
    simp only [OpenSum.fold, hcounter]
    rfl
  | frame op top bottom depth h =>
    exact ⟨_, _, _, _, distinguishes_of_argument h.finish, rfl, rfl⟩

end OpenSum

/-! ## Expressions in the making -/

theorem Frame.kept_apart : Frame.Kept (Frame.Apart o) where
  push h token := h.push token
  pushBody h body := h.pushBody body
  pop h hf hg := h.pop hf hg
  wrapOperand h before after := h.wrapOperand before after

namespace Progress

variable {p q : Progress} {kind : Kind} {meaning : Meaning}

/-- The expressions in the making differ in one place. -/
abbrev Apart (o : ExprOptions) (p q : Progress) : Prop :=
  Related (Frame.Apart o) (OpenSum.Apart o) p q

/-- Statements that are told apart come from inside. -/
theorem settledRelated_of_body {body body' : String} (h : o.Distinguishes body body')
    (balancedOnly : Bool) (expr : String) (root : Frame) (n : Nat) (sums : List OpenSum) :
    SettledRelated (Frame.Apart o) (OpenSum.Apart o) (settle w balancedOnly ⟨body, expr⟩ root n sums)
      (settle w balancedOnly ⟨body', expr⟩ root n sums) := by
  induction sums generalizing body body' expr n with
  | nil => exact ⟨.root [] ((Frame.apart_pushBody root h).push expr), rfl⟩
  | cons s rest ih =>
    have htaken : OpenSum.Apart o { s with frame := s.frame.add ⟨body, expr⟩ }
        { s with frame := s.frame.add ⟨body', expr⟩ } :=
      .frame s.op s.top s.bottom s.depth ((Frame.apart_pushBody s.frame h).push expr)
    rw [settle_cons, settle_cons]
    split
    · exact ⟨.sum root [] rest htaken, rfl⟩
    · obtain ⟨name, text, text', n', htext, hfold, hfold'⟩ := htaken.fold (w := w) n
      rw [hfold, hfold']
      exact ih htext name n'

theorem kept_apart (w : ExprOptions) : Kept w (Frame.Apart o) (OpenSum.Apart o) where
  toKept := Frame.kept_apart
  depth h := h.depth_eq
  setDepth h depth := h.setDepth depth
  modify h change hchange := h.modify change hchange
  settle h balancedOnly root n outer := by
    obtain ⟨name, text, text', n', htext, hfold, hfold'⟩ := h.fold (w := w) n
    rw [hfold, hfold']
    exact settledRelated_of_body htext balancedOnly name root n' outer

/-- In the end the difference is in the finished expression. -/
theorem Related.apart_finish (h : p.Apart o q) (ho : w.promotesIntegers = false) :
    (p.finish w).1.Apart o (q.finish w).1 ∧ (p.finish w).2 = (q.finish w).2 := by
  have hroot := h.root_close (kept_apart w)
  rw [finish_eq, finish_eq]
  simp only [Expression.written, ho, Bool.false_eq_true, if_false]
  exact ⟨hroot.finish, (h.close (kept_apart w)).counter⟩

/-! ### A node that differs -/

theorem apart_modifyFrame (p : Progress) {change change' : Frame → Frame}
    (h : ∀ frame, (change frame).Apart o (change' frame)) :
    (p.modifyFrame change).Apart o (p.modifyFrame change') := by
  obtain ⟨previous, root, _ | ⟨s, rest⟩, implicit, counter⟩ := p
  · exact ⟨rfl, .root [] (h root), rfl, rfl⟩
  · exact ⟨rfl, .sum root [] rest (.frame s.op s.top s.bottom s.depth (h s.frame)), rfl, rfl⟩

theorem not_parenFree_power (e : Expression) : ¬ParenFree e.power.expr :=
  not_parenFree_of_mem (by simp [Expression.power])

/-- Nodes that mean something different make a difference. -/
theorem apart_apply (p : Progress) {m m' : Meaning} (h : m.Apart o m') (kind : Kind) :
    (p.apply w kind m).Apart o (p.apply w kind m') := by
  cases h with
  | @piece c d h hc hd =>
    obtain ⟨he, hcounter⟩ := h (p.beforeText w kind).counter
    have hadd := apart_modifyFrame (p.beforeText w kind) fun frame =>
      Frame.apart_add frame he (hc _) (hd _)
    simp only [apply, emit_eq, hcounter]
    exact (hadd.setCounter _).countParen (kept_apart w) kind
  | top op bottom h => exact ⟨rfl, .sum p.root [] p.sums (.top op bottom 0 .empty h), rfl, rfl⟩
  | bottom op top h => exact ⟨rfl, .sum p.root [] p.sums (.bottom op top 0 .empty h), rfl, rfl⟩
  | @exponent exponent exponent' base h =>
    obtain ⟨he, hcounter⟩ := h p.counter
    have hraise := apart_modifyFrame p fun frame => Frame.apart_wrapOperand frame he
      (not_parenFree_power _) (not_parenFree_power _) (w.powerFunction ++ "(")
    simp only [apply, raise_eq, hcounter]
    exact hraise.setCounter _

/-- A node that differs makes a difference, unless it is taken as the base of a logarithm. -/
theorem apart_advance (p : Progress) {m m' : Meaning} (h : m.Apart o m') (kind : Kind)
    (hlog : ∀ exponent base, m = .scripts exponent (some base) → p.afterLog = false) :
    (p.advance w kind m).Apart o (p.advance w kind m') := by
  have hother := (apart_apply (w := w) ((p.separate kind).adjustImplicit kind) h kind).setPrevious
    (some kind)
  unfold advance
  simp only [afterLog_separate]
  cases h with
  | piece => exact hother
  | top => exact hother
  | bottom => exact hother
  | @exponent exponent exponent' base h =>
    cases base with
    | none => exact hother
    | some base =>
      rw [hlog _ base rfl]
      exact hother

end Progress

end FormulaEditor
