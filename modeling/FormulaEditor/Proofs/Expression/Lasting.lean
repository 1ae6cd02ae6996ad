import FormulaEditor.Proofs.Expression.Writing

/-!
# What lasts

Something seen in a frame is to be found in the finished expression if it outlasts what is done to a
frame: more text behind it, a call put around an operand, and, when a sum is closed, the frame going
into the loop around it. Something may also wait in a frame until the sum that is open there is
closed and its variable completes it.
-/

namespace FormulaEditor

/-- What is seen in a frame outlasts what is done to the frame, and what waits in a frame is
complete once a sum behind it is closed. -/
structure Frame.Lasts (o : ExprOptions) (seen waiting : Frame → Prop) : Prop where
  push : ∀ {f : Frame}, seen f → ∀ token, seen (f.push token)
  pushBody : ∀ {f : Frame}, seen f → ∀ body, seen (f.pushBody body)
  power : ∀ {f : Frame}, seen f → ∀ after, seen (f.wrapOperand (o.powerFunction ++ "(") after)
  factorial : ∀ {f : Frame}, seen f →
    ∀ after, seen (f.wrapOperand (o.factorialFunction ++ "(") after)
  fold : ∀ {s : OpenSum}, seen s.frame → ∀ n (outer : Frame), seen (outer.add (s.fold o n).1)
  complete : ∀ {f : Frame}, waiting f → ∀ s n, seen (f.add (OpenSum.fold o s n).1)

/-- It is seen in one of the frames, or waits in one behind the first. -/
def Shown (seen waiting : Frame → Prop) (frames : List Frame) : Prop :=
  (∃ f ∈ frames, seen f) ∨ ∃ f ∈ frames.tail, waiting f

namespace Shown

variable {o : ExprOptions} {seen waiting : Frame → Prop} {f : Frame} {frames : List Frame}
  {change : Frame → Frame}

theorem modifyHead (h : Shown seen waiting frames) (hc : ∀ f, seen f → seen (change f)) :
    Shown seen waiting (frames.modifyHead change) := by
  cases frames with
  | nil => exact h
  | cons g rest =>
    obtain ⟨f, hf, hseen⟩ | ⟨f, hf, hwaits⟩ := h
    · obtain rfl | hf := List.mem_cons.mp hf
      · exact .inl ⟨_, List.mem_cons_self, hc _ hseen⟩
      · exact .inl ⟨f, List.mem_cons_of_mem _ hf, hseen⟩
    · exact .inr ⟨f, hf, hwaits⟩

/-- One more sum is open. -/
theorem cons (h : Shown seen waiting frames) (g : Frame) : Shown seen waiting (g :: frames) := by
  obtain ⟨f, hf, hseen⟩ | ⟨f, hf, hwaits⟩ := h
  · exact .inl ⟨f, List.mem_cons_of_mem _ hf, hseen⟩
  · exact .inr ⟨f, List.mem_of_mem_tail hf, hwaits⟩

/-- The innermost sum is closed. -/
theorem fold {s : OpenSum} {n : Nat} (hl : Frame.Lasts o seen waiting)
    (h : Shown seen waiting (s.frame :: frames)) (hne : frames ≠ []) :
    Shown seen waiting (frames.modifyHead (·.add (s.fold o n).1)) := by
  obtain ⟨g, rest, rfl⟩ := List.exists_cons_of_ne_nil hne
  have hadd : ∀ f, seen f → seen (f.add (s.fold o n).1) :=
    fun f hf => hl.push (hl.pushBody hf _) _
  obtain ⟨f, hf, hseen⟩ | ⟨f, hf, hwaits⟩ := h
  · obtain rfl | hf := List.mem_cons.mp hf
    · exact .inl ⟨_, List.mem_cons_self, hl.fold hseen n g⟩
    · exact modifyHead (.inl ⟨f, hf, hseen⟩) hadd
  · obtain rfl | hf := List.mem_cons.mp hf
    · exact .inl ⟨_, List.mem_cons_self, hl.complete hwaits s n⟩
    · exact .inr ⟨f, hf, hwaits⟩

end Shown

namespace Progress

variable {o : ExprOptions} {seen waiting : Frame → Prop} {p : Progress} {node : Node} {kind : Kind}
  {meaning : Meaning} {change : Frame → Frame}

/-- The frames that are written into, innermost first. -/
def frames (p : Progress) : List Frame :=
  p.sums.map OpenSum.frame ++ [p.root]

@[simp] theorem frames_modifyFrame :
    (p.modifyFrame change).frames = p.frames.modifyHead change := by
  obtain ⟨_, _, _ | _, _, _⟩ := p <;> rfl

@[simp] theorem frames_countParen : (p.countParen kind).frames = p.frames := by
  rw [countParen_eq]
  obtain ⟨_, _, _ | _, _, _⟩ := p <;> rfl

theorem head?_frames : p.frames.head? = some p.current := by
  obtain ⟨_, _, _ | _, _, _⟩ := p <;> rfl

theorem shown_of_current (h : seen p.current) : Shown seen waiting p.frames :=
  .inl ⟨_, List.mem_of_mem_head? head?_frames, h⟩

section Steps

variable (hl : Frame.Lasts o seen waiting) (h : Shown seen waiting p.frames)

include hl

theorem shown_settle {balancedOnly : Bool} {e : Expression} {root : Frame} {n : Nat}
    {sums : List OpenSum}
    (h : Shown seen waiting ((sums.map OpenSum.frame ++ [root]).modifyHead (·.add e))) :
    Shown seen waiting ((settle o balancedOnly e root n sums).1.map OpenSum.frame ++
      [(settle o balancedOnly e root n sums).2.1]) := by
  -- By the sums that are open, the innermost taking in what comes from inside it.
  induction sums generalizing e n with
  | nil => exact h
  | cons s rest ih =>
    rw [settle_cons]
    split
    · exact h
    · refine ih (Shown.fold (s := { s with frame := s.frame.add e }) hl h ?_)
      simp

include h

theorem shown_push (token : String) : Shown seen waiting (p.push token).frames := by
  rw [push, frames_modifyFrame]
  exact h.modifyHead fun f hf => hl.push hf token

theorem shown_add (e : Expression) : Shown seen waiting (p.add e).frames := by
  rw [add, frames_modifyFrame]
  exact h.modifyHead fun f hf => hl.push (hl.pushBody hf _) _

theorem shown_separate (kind : Kind) : Shown seen waiting (p.separate kind).frames := by
  unfold separate
  split
  · exact shown_push hl h "*"
  · exact h

theorem shown_adjustImplicit (kind : Kind) : Shown seen waiting (p.adjustImplicit kind).frames := by
  unfold adjustImplicit
  split
  · exact shown_push hl h "("
  · split
    · exact shown_push hl h _
    · exact h

theorem shown_closeSums (balancedOnly : Bool) :
    Shown seen waiting (p.closeSums o balancedOnly).frames := by
  have hblank : (p.sums.map OpenSum.frame ++ [p.root]).modifyHead (·.add .blank) = p.frames := by
    cases hs : p.sums <;> simp [frames, hs]
  exact shown_settle hl (hblank ▸ h)

theorem shown_beforeText (kind : Kind) : Shown seen waiting (p.beforeText o kind).frames := by
  unfold beforeText
  split
  · exact shown_closeSums hl h true
  · exact h

theorem shown_apply (kind : Kind) (meaning : Meaning) :
    Shown seen waiting (p.apply o kind meaning).frames := by
  rcases meaning with ⟨_ | exponent, base⟩ | _ | ⟨op, top, bottom⟩ | text
  · exact h
  · simp only [apply, raise_eq]
    show Shown seen waiting (p.modifyFrame _).frames
    rw [frames_modifyFrame]
    exact h.modifyHead fun f hf => hl.pushBody (hl.power hf _) _
  · simp only [apply, frames_modifyFrame]
    exact h.modifyHead fun f hf => hl.factorial hf _
  · exact h.cons _
  · simp only [apply, emit_eq, frames_countParen]
    exact shown_add hl (shown_beforeText hl h kind) _

/-- Writing a node leaves what is shown, and the logarithm it may be can be taken away again. -/
theorem shown_advance (node : Node) (hpop : (node.hasSubscript && p.afterLog) = true →
      Shown seen waiting (p.frames.modifyHead Frame.pop)) :
    Shown seen waiting (p.advance o node.kind (node.meaning o)).frames ∧
      ((p.advance o node.kind (node.meaning o)).afterLog = true → Shown seen waiting
        ((p.advance o node.kind (node.meaning o)).frames.modifyHead Frame.pop)) := by
  obtain ⟨exponent, base, hm, hlog, heq⟩ | ⟨-, heq⟩ := advance_eq o p node
  · have hsub : node.hasSubscript = true := Node.hasSubscript_iff.mpr ⟨exponent, base, hm⟩
    have hkind := Node.kind_of_meaning_scripts hm
    rw [heq, hkind, separate_scripts, takeBase_eq]
    refine ⟨?_, Bool.noConfusion⟩
    show Shown seen waiting (((p.modifyFrame Frame.pop).add _).frames)
    refine shown_add hl ?_ _
    rw [frames_modifyFrame]
    exact hpop (by simp [hsub, hlog])
  · rw [heq]
    have hq := shown_adjustImplicit hl (shown_separate hl h node.kind) node.kind
    refine ⟨shown_apply hl hq node.kind (node.meaning o), fun hlog => ?_⟩
    obtain ⟨name, rfl, -, hne⟩ := eq_log_of_afterLog hlog
    -- The name is the token that was written last.
    have hpop : ∀ f : Frame, (f.push name).pop = f := by simp [Frame.push, Frame.pop, hne]
    simp only [Node.kind, Node.meaning, apply_function] at hq ⊢
    show Shown seen waiting ((Progress.modifyFrame _ _).frames.modifyHead Frame.pop)
    rw [frames_modifyFrame, List.modifyHead_modifyHead]
    have hid : Frame.pop ∘ (·.push name) = id := funext hpop
    rwa [hid, List.modifyHead_id]

theorem shown_writeAll {nodes : List Node}
    (hpop : ∀ node ∈ nodes.head?, (node.hasSubscript && p.afterLog) = true →
      Shown seen waiting (p.frames.modifyHead Frame.pop)) :
    Shown seen waiting (Node.writeAll o nodes p).frames := by
  induction nodes generalizing p with
  | nil => exact h
  | cons node nodes ih =>
    have ⟨hnext, hlog⟩ := shown_advance hl h node (hpop node rfl)
    refine ih hnext fun next _ hafter => hlog ?_
    exact (Bool.and_eq_true_iff.mp hafter).2

/-- In the end it is seen outside of all sums. -/
theorem seen_close : seen (p.close o).root := by
  have hclose : Shown seen waiting (p.close o).frames :=
    shown_closeSums hl (shown_push hl h _) false
  have hsums : (p.close o).sums = [] := sums_settle
  rw [frames, hsums] at hclose
  rcases hclose with ⟨f, hf, hseen⟩ | ⟨f, hf, _⟩
  · obtain rfl : f = (p.close o).root := by simpa using hf
    exact hseen
  · cases hf

end Steps

end Progress

end FormulaEditor
