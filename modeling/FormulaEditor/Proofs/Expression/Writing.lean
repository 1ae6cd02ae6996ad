import FormulaEditor.Expression.Compiler
import FormulaEditor.Proofs.Text.Italic

/-!
# Writing one node

What each part of writing a node does to the fields of an expression in the making. A node is either
taken as the base of the logarithm before it, or its meaning is applied to the frame that text goes
to. What is true of all nodes alike comes first: which meanings a kind of node may have.
-/

namespace FormulaEditor

/-! ## Nodes and what they mean -/

/-- Whether the node is scripts with a subscript. -/
def Node.hasSubscript : Node → Bool
  | .scripts _ (some _) => true
  | _ => false

/-- The meaning is one that a node of this kind may have. -/
def Meaning.Suits (kind : Kind) : Meaning → Prop
  | .scripts _ _ => kind = .scripts
  | .bang => kind.isAtom = true
  | .big op _ _ => kind = .big op
  | .piece _ => kind.isScripts = false ∧ kind.isBig = false

theorem Node.meaning_suits (o : ExprOptions) (node : Node) : (node.meaning o).Suits node.kind := by
  rcases node with _ | _ | _ | _ | _ | ⟨_ | _, _⟩ | ⟨_ | _, _ | _⟩ | _ | _ <;>
    simp only [meaning, literal, kind]
  case atom => split <;> simp [Meaning.Suits, Kind.isAtom, Kind.isScripts, Kind.isBig]
  all_goals simp [Meaning.Suits, Kind.isScripts, Kind.isBig]

/-- Nothing but scripts is written as scripts. -/
theorem Node.kind_of_meaning_scripts {o : ExprOptions} {node : Node}
    {exponent base : Option Compilation} (hm : node.meaning o = .scripts exponent base) :
    node.kind = .scripts := by
  have hsuits := Node.meaning_suits o node
  rwa [hm] at hsuits

theorem Node.hasSubscript_iff {o : ExprOptions} {node : Node} : node.hasSubscript = true ↔
    ∃ exponent base, node.meaning o = .scripts exponent (some base) := by
  rcases node with _ | _ | _ | _ | _ | ⟨_ | _, _⟩ | ⟨_ | _, _ | _⟩ | _ | _ <;>
    simp only [meaning, literal, hasSubscript]
  case atom => split <;> simp
  all_goals simp

/-- The expression with its integers as the options want them. -/
def Expression.written (o : ExprOptions) (e : Expression) : Expression :=
  if o.promotesIntegers then e.promoteIntegers else e

@[simp] theorem Frame.add_blank (frame : Frame) : frame.add .blank = frame := by
  simp [Frame.add, Frame.push, Frame.pushBody, Expression.blank, Expression.pure]

@[simp] theorem Frame.body_push {frame : Frame} {token : String} :
    (frame.push token).body = frame.body := by
  unfold Frame.push
  split <;> rfl

@[simp] theorem Frame.body_add {frame : Frame} {e : Expression} :
    (frame.add e).body = frame.body ++ e.body := by
  simp [Frame.add, Frame.pushBody]

namespace Progress

variable {o : ExprOptions} {p : Progress} {node : Node} {kind : Kind} {meaning : Meaning}
  {change : Frame → Frame} {balancedOnly : Bool} {text : Compilation}

/-! ## The frame that text goes to -/

/-- The frame that text goes to. -/
def current (p : Progress) : Frame :=
  match p.sums with
  | [] => p.root
  | s :: _ => s.frame

@[simp] theorem previous_modifyFrame : (p.modifyFrame change).previous = p.previous := by
  unfold modifyFrame
  split <;> rfl

@[simp] theorem implicit_modifyFrame : (p.modifyFrame change).implicit = p.implicit := by
  unfold modifyFrame
  split <;> rfl

@[simp] theorem counter_modifyFrame : (p.modifyFrame change).counter = p.counter := by
  unfold modifyFrame
  split <;> rfl

@[simp] theorem current_modifyFrame : (p.modifyFrame change).current = change p.current := by
  obtain ⟨_, _, _ | _, _, _⟩ := p <;> rfl

@[simp] theorem depths_modifyFrame :
    (p.modifyFrame change).sums.map OpenSum.depth = p.sums.map OpenSum.depth := by
  obtain ⟨_, _, _ | _, _, _⟩ := p <;> rfl

/-! ## Parts of a step -/

theorem takeBase_eq (base : Compilation) : p.takeBase o base =
    { (p.modifyFrame Frame.pop).add
        ⟨(base p.counter).1.body, o.logBaseFunction ++ "(" ++ (base p.counter).1.expr ++ ","⟩ with
      implicit := p.implicit + 1, previous := none, counter := (base p.counter).2 } := by
  simp [takeBase, add]

theorem raise_eq (exponent : Compilation) : p.raise o exponent =
    { p.modifyFrame fun frame =>
        (frame.wrapOperand (o.powerFunction ++ "(")
          (", (" ++ (exponent p.counter).1.expr ++ "))")).pushBody (exponent p.counter).1.body with
      counter := (exponent p.counter).2 } := rfl

/-- The innermost sum takes in what comes from inside it, and is closed unless it has open parens. -/
theorem settle_cons {e : Expression} {root : Frame} {counter : Nat} {s : OpenSum}
    {rest : List OpenSum} : settle o balancedOnly e root counter (s :: rest) =
      if balancedOnly && s.depth != 0 then ({ s with frame := s.frame.add e } :: rest, root, counter)
      else settle o balancedOnly (({ s with frame := s.frame.add e } : OpenSum).fold o counter).1 root
        (({ s with frame := s.frame.add e } : OpenSum).fold o counter).2 rest := rfl

/-- In the end no sum is open. -/
theorem sums_settle {e : Expression} {root : Frame} {counter : Nat} {sums : List OpenSum} :
    (settle o false e root counter sums).1 = [] := by
  induction sums generalizing e counter with
  | nil => rfl
  | cons s rest ih =>
    rw [settle_cons, if_neg (by simp)]
    exact ih

/-- The expression before text of a node's own. -/
def beforeText (o : ExprOptions) (p : Progress) (kind : Kind) : Progress :=
  if kind.endsArgument then p.closeSums o true else p

theorem emit_eq : p.emit o kind text =
    ({ (p.beforeText o kind).add (text (p.beforeText o kind).counter).1 with
      counter := (text (p.beforeText o kind).counter).2 } : Progress).countParen kind := rfl

@[simp] theorem previous_separate : (p.separate kind).previous = p.previous := by
  unfold separate
  split <;> simp [push]

@[simp] theorem implicit_separate : (p.separate kind).implicit = p.implicit := by
  unfold separate
  split <;> simp [push]

@[simp] theorem counter_separate : (p.separate kind).counter = p.counter := by
  unfold separate
  split <;> simp [push]

@[simp] theorem depths_separate :
    (p.separate kind).sums.map OpenSum.depth = p.sums.map OpenSum.depth := by
  unfold separate
  split <;> simp [push]

@[simp] theorem afterLog_separate : (p.separate kind).afterLog = p.afterLog := by
  simp [afterLog]

@[simp] theorem depths_adjustImplicit :
    (p.adjustImplicit kind).sums.map OpenSum.depth = p.sums.map OpenSum.depth := by
  unfold adjustImplicit closeImplicit
  split
  · simp [push]
  · split <;> simp [push]

@[simp] theorem counter_adjustImplicit : (p.adjustImplicit kind).counter = p.counter := by
  unfold adjustImplicit closeImplicit
  split
  · simp [push]
  · split <;> simp [push]

@[simp] theorem implicit_closeSums : (p.closeSums o balancedOnly).implicit = p.implicit := rfl

@[simp] theorem implicit_beforeText : (p.beforeText o kind).implicit = p.implicit := by
  unfold beforeText
  split <;> rfl

/-- How many parens are open behind a node. -/
def openBehind (kind : Kind) (depth : Nat) : Nat :=
  if kind.isLeftParen then depth + 1 else if kind.isRightParen then depth - 1 else depth

/-- A node counts for the innermost sum only. -/
theorem countParen_eq : p.countParen kind =
    { p with sums := p.sums.modifyHead fun s => { s with depth := openBehind kind s.depth } } := by
  obtain ⟨_, _, _ | ⟨s, rest⟩, _, _⟩ := p
  · rfl
  · unfold countParen openBehind
    simp only [List.modifyHead_cons]
    split
    · rfl
    · split <;> rfl

@[simp] theorem implicit_countParen : (p.countParen kind).implicit = p.implicit := by
  rw [countParen_eq]

@[simp] theorem counter_countParen : (p.countParen kind).counter = p.counter := by
  rw [countParen_eq]

@[simp] theorem root_countParen : (p.countParen kind).root = p.root := by
  rw [countParen_eq]

@[simp] theorem sums_countParen_eq_nil : (p.countParen kind).sums = [] ↔ p.sums = [] := by
  simp [countParen_eq]

theorem depths_countParen : (p.countParen kind).sums.map OpenSum.depth =
    if kind.isLeftParen then (p.sums.map OpenSum.depth).modifyHead (· + 1)
    else if kind.isRightParen then (p.sums.map OpenSum.depth).modifyHead (· - 1)
    else p.sums.map OpenSum.depth := by
  rw [countParen_eq]
  unfold openBehind
  cases p.sums with
  | nil => simp
  | cons s rest =>
    split
    · simp
    · split <;> simp

theorem implicit_apply : (p.apply o kind meaning).implicit = p.implicit := by
  rcases meaning with ⟨_ | _, _⟩ | _ | _ | _ <;> simp [apply, raise_eq, emit_eq, add]

/-! ## The end -/

/-- The expression with everything closed that is open at its end. -/
def close (o : ExprOptions) (p : Progress) : Progress :=
  (p.push (repeated p.implicit ")")).closeSums o false

theorem finish_eq : p.finish o =
    ((p.close o).root.finish.written o, (p.close o).counter) := rfl

theorem writeAll_append {nodes rest : List Node} :
    Node.writeAll o (nodes ++ rest) p = Node.writeAll o rest (Node.writeAll o nodes p) := by
  induction nodes generalizing p with
  | nil => rfl
  | cons node nodes ih => exact ih

/-! ## A step -/

/-- A node is written as the base of the logarithm before it, or as what it is. -/
theorem advance_eq (o : ExprOptions) (p : Progress) (node : Node) :
    (∃ exponent base, node.meaning o = .scripts exponent (some base) ∧ p.afterLog = true ∧
        p.advance o node.kind (node.meaning o) = (p.separate node.kind).takeBase o base) ∨
      (node.hasSubscript && p.afterLog) = false ∧ p.advance o node.kind (node.meaning o) =
        { ((p.separate node.kind).adjustImplicit node.kind).apply o node.kind (node.meaning o) with
          previous := some node.kind } := by
  unfold advance
  simp only [afterLog_separate]
  split
  · rename_i exponent base hm hlog
    exact .inl ⟨exponent, base, hm, hlog, rfl⟩
  · rename_i hno
    refine .inr ⟨Bool.eq_false_iff.mpr fun hc => ?_, rfl⟩
    obtain ⟨hsub, hlog⟩ : node.hasSubscript = true ∧ p.afterLog = true := by simpa using hc
    obtain ⟨exponent, base, hm⟩ := Node.hasSubscript_iff.mp hsub
    exact hno exponent base hm hlog

/-- Nothing is written between a node and its scripts. -/
theorem separate_scripts : p.separate .scripts = p := by
  have hnone : ∀ previous, impliesProduct previous .scripts = false := by
    simp [impliesProduct, Kind.isScripts]
  unfold separate
  rw [if_neg]
  cases p.previous <;> simp [hnone]

/-! ## The logarithm -/

/-- After the logarithm, its name is the last token. -/
def Logged (p : Progress) : Prop :=
  p.afterLog → ∃ name ∈ p.current.tokens.head?, Text.unitalicize name = "log"

theorem logged_start (counter : Nat) : (start counter).Logged :=
  fun h => nomatch h

/-- After a node that is the logarithm. -/
theorem eq_log_of_afterLog {q : Progress}
    (h : ({ q with previous := some node.kind } : Progress).afterLog = true) :
    ∃ name, node = .function name ∧ Text.unitalicize name = "log" ∧ name.isEmpty = false := by
  obtain ⟨hf, htext⟩ : node.kind.isFunction = true ∧ node.kind.text? = some "log" := by
    simpa [afterLog] using h
  cases node <;> simp only [Node.kind, Kind.isFunction, Bool.false_eq_true] at hf
  rename_i name
  have hname : Text.unitalicize name = "log" := Option.some.inj htext
  refine ⟨name, rfl, hname, Bool.eq_false_iff.mpr fun hempty => ?_⟩
  obtain rfl : name = "" := by simpa using hempty
  simp [Text.unitalicize] at hname

/-- A function name is one more token. -/
theorem apply_function {name : String} : p.apply o (.function name) (Node.literal name) =
    p.modifyFrame (·.push name) := by
  obtain ⟨_, _, _ | _, _, _⟩ := p <;>
    simp [Node.literal, apply, emit, Kind.endsArgument, Kind.isBinary, Kind.isRightParen,
      Kind.isLeftParen, countParen, add, modifyFrame, Frame.add, Frame.pushBody, Expression.pure]

theorem logged_advance : (p.advance o node.kind (node.meaning o)).Logged := by
  obtain ⟨exponent, base, -, -, heq⟩ | ⟨-, heq⟩ := advance_eq o p node
  · rw [heq]
    exact fun h => nomatch h
  · rw [heq]
    intro h
    obtain ⟨name, rfl, hname, hne⟩ := eq_log_of_afterLog h
    refine ⟨name, ?_, hname⟩
    simp only [Node.kind, Node.meaning, apply_function]
    change name ∈ (Progress.modifyFrame _ _).current.tokens.head?
    simp [Frame.push, hne]

end Progress

end FormulaEditor
