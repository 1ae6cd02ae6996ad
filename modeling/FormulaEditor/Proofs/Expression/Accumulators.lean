import FormulaEditor.Proofs.Expression.Uniform

/-!
# Accumulators

Every sum that is compiled becomes one loop with an accumulator of its own. Sums are closed at
different moments, and what closes them moves loops from frame to frame, but no loop is lost or
written twice: the loops in the frames and the sums still open are always as many as the sums that
were met. So the accumulators of an expression are numbered without gaps, and each of them is
declared once, before it is used.
-/

namespace FormulaEditor

/-! ## Sums of a formula -/

/-- Whether the node is the logarithm. -/
def Node.isLog (node : Node) : Bool :=
  node.kind.isFunction && node.kind.text? == some "log"

mutual

/-- How many sums are compiled for a node. Directly after the logarithm a subscript is its base, and
an exponent beside it is left out; elsewhere a subscript is. -/
def Node.sumCount (afterLog : Bool) : Node → Nat
  | .atom _ => 0
  | .binary _ => 0
  | .function _ => 0
  | .paren _ => 0
  | .frac numerator denominator => sumCountAll false numerator + sumCountAll false denominator
  | .radical none radicand => sumCountAll false radicand
  | .radical (some index) radicand => sumCountAll false radicand + sumCountAll false index
  | .scripts none none => 0
  | .scripts (some exponent) none => sumCountAll false exponent
  | .scripts none (some subscript) => if afterLog then sumCountAll false subscript else 0
  | .scripts (some exponent) (some subscript) =>
    if afterLog then sumCountAll false subscript else sumCountAll false exponent
  | .wrapped _ argument => sumCountAll false argument
  | .big _ top bottom => sumCountAll false top + sumCountAll false bottom + 1

/-- How many sums are compiled for nodes one after the other. -/
def Node.sumCountAll (afterLog : Bool) : List Node → Nat
  | [] => 0
  | node :: nodes => node.sumCount afterLog + sumCountAll node.isLog nodes

end

/-! ## Open sums -/

/-- The open sums are the same for every numbering but for names. Their loops declare each
accumulator as often as said, and so many more are declared when they are closed. -/
inductive OpenSum.Uniform : (declared : Nat → Nat) → (pending : Nat) →
    (Numbering → List OpenSum) → Prop
  | nil : Uniform (fun _ => 0) 0 fun _ => []
  | cons {declared declared' : Nat → Nat} {a b depth pending : Nat} {op : BigOp}
    {top bottom : Numbering → Compilation} {frame : Numbering → Frame}
    {rest : Numbering → List OpenSum} (htop : Compilation.Uniform a top)
    (hbottom : Compilation.Uniform b bottom) (hframe : Frame.Uniform declared frame)
    (hrest : Uniform declared' pending rest) :
    Uniform (fun fold => declared fold + declared' fold) (a + b + 1 + pending)
      fun ν => ⟨op, top ν, bottom ν, depth, frame ν⟩ :: rest ν

/-- A sum declares what its limits do, its own accumulator and what its argument does. -/
theorem OpenSum.uniform_fold {a b : Nat} {declared : Nat → Nat} {top bottom : Numbering → Compilation}
    {frame : Numbering → Frame} (htop : Compilation.Uniform a top)
    (hbottom : Compilation.Uniform b bottom) (hframe : Frame.Uniform declared frame)
    (o : ExprOptions) (op : BigOp) (depth next : Nat) :
    ∃ e, Expression.Uniform
        (fun fold => between next (next + (a + b + 1)) fold + declared fold) e ∧
      ∀ ν, OpenSum.fold (ν.options o) ⟨op, top ν, bottom ν, depth, frame ν⟩ (ν.number next) =
        (e ν, ν.number (next + (a + b + 1))) := by
  obtain ⟨init, hi, hbottom⟩ := hbottom next
  obtain ⟨last, hl, htop⟩ := htop (next + b)
  refine ⟨_, (Expression.uniform_loopText hi hl hframe.finish op (next + b + a)).congr fun fold => ?_,
    fun ν => ?_⟩
  · have hlower := between_trans (Nat.le_add_right next b) (Nat.le_add_right (next + b) a) fold
    have hown : between (next + b + a) (next + b + a + 1) fold =
        if next + b + a = fold then 1 else 0 := by
      unfold between
      split <;> split <;> omega
    have hlimits : next ≤ next + b + a := by omega
    have hall := between_trans hlimits (Nat.le_add_right (next + b + a) 1) fold
    have hsum : next + b + a + 1 = next + (a + b + 1) := by omega
    rw [← hsum]
    omega
  · have hnext : next + b + a + 1 = next + (a + b + 1) := by omega
    simp only [OpenSum.fold, hbottom, htop, Numbering.nextNumber_options, hnext]
    rfl

namespace Progress

/-- The expression in the making is the same for every numbering but for names. Its loops declare
accumulators in a row, and so many are declared in the end. -/
inductive Uniform (first : Nat) (previous : Option Kind) : (total : Nat) →
    (Numbering → Progress) → Prop
  | intro {declared declared' : Nat → Nat} {next pending implicit : Nat} {root : Numbering → Frame}
    {sums : Numbering → List OpenSum} (hroot : Frame.Uniform declared root)
    (hsums : OpenSum.Uniform declared' pending sums) (hle : first ≤ next)
    (hdeclared : ∀ fold, declared fold + declared' fold = between first next fold) :
    Uniform first previous (next + pending)
      fun ν => ⟨previous, root ν, sums ν, implicit, ν.number next⟩

variable {first total folds : Nat} {previous : Option Kind} {p : Numbering → Progress}
  {o : ExprOptions} {kind : Kind} {balancedOnly : Bool} {c : Numbering → Compilation}

theorem uniform_start (first : Nat) :
    Uniform first none first fun ν => start (ν.number first) :=
  .intro Frame.uniform_empty .nil (Nat.le_refl first) fun fold => by simp

theorem Uniform.previous_eq (h : Uniform first previous total p) (ν : Numbering) :
    (p ν).previous = previous := by
  cases h
  rfl

theorem Uniform.implicit_eq (h : Uniform first previous total p) :
    ∃ implicit, ∀ ν, (p ν).implicit = implicit := by
  cases h
  exact ⟨_, fun _ => rfl⟩

/-! ## Parts of a step -/

theorem Uniform.modifyFrame (h : Uniform first previous total p) {change : Frame → Frame}
    (hchange : ∀ {declared frame}, Frame.Uniform declared frame →
      Frame.Uniform declared fun ν => change (frame ν)) :
    Uniform first previous total fun ν => (p ν).modifyFrame change := by
  obtain ⟨hroot, hsums, hle, hdeclared⟩ := h
  cases hsums with
  | nil => exact .intro (hchange hroot) .nil hle hdeclared
  | cons htop hbottom hframe hrest =>
    exact .intro hroot (.cons htop hbottom (hchange hframe) hrest) hle hdeclared

/-- An expression of its own goes into the frame, with the loops that it depends on. -/
theorem Uniform.write (h : Uniform first previous total p) (hc : Compilation.Uniform folds c)
    (change : Frame → Expression → Frame)
    (hchange : ∀ {declared declared' frame e}, Frame.Uniform declared frame →
      Expression.Uniform declared' e →
      Frame.Uniform (fun fold => declared fold + declared' fold) fun ν => change (frame ν) (e ν)) :
    Uniform first previous (total + folds) fun ν =>
      { (p ν).modifyFrame fun frame => change frame (c ν (p ν).counter).1 with
        counter := (c ν (p ν).counter).2 } := by
  obtain @⟨declared, declared', next, pending, implicit, root, sums, hroot, hsums, hle, hdeclared⟩ := h
  obtain ⟨e, he, hc⟩ := hc next
  have htotal : next + pending + folds = next + folds + pending := by omega
  have hnext : ∀ fold, declared fold + between next (next + folds) fold + declared' fold =
      between first (next + folds) fold := by
    intro fold
    have := hdeclared fold
    have := between_trans hle (Nat.le_add_right next folds) fold
    omega
  simp only [hc, htotal]
  cases hsums with
  | nil => exact .intro (hchange hroot he) .nil (by omega) hnext
  | @cons declared₁ declared₂ _ _ _ _ _ _ _ _ _ htop hbottom hframe hrest =>
    refine .intro hroot (.cons htop hbottom (hchange hframe he) hrest) (by omega) fun fold => ?_
    have hfold : declared fold + between next (next + folds) fold +
      (declared₁ fold + declared₂ fold) = _ := hnext fold
    omega

theorem Uniform.setPrevious (h : Uniform first previous total p) (previous' : Option Kind) :
    Uniform first previous' total fun ν => { p ν with previous := previous' } := by
  obtain ⟨hroot, hsums, hle, hdeclared⟩ := h
  exact .intro hroot hsums hle hdeclared

theorem Uniform.setImplicit (h : Uniform first previous total p) (change : Nat → Nat) :
    Uniform first previous total fun ν => { p ν with implicit := change (p ν).implicit } := by
  obtain @⟨_, _, next, pending, implicit, root, sums, hroot, hsums, hle, hdeclared⟩ := h
  exact @Uniform.intro first previous _ _ next pending (change implicit) root sums hroot hsums hle
    hdeclared

theorem Uniform.push (h : Uniform first previous total p) (token : String) :
    Uniform first previous total fun ν => (p ν).push token :=
  h.modifyFrame fun hframe => hframe.push token

theorem Uniform.separate (h : Uniform first previous total p) (kind : Kind) :
    Uniform first previous total fun ν => (p ν).separate kind := by
  have hprevious := h.previous_eq
  simp only [Progress.separate, hprevious]
  split
  · exact h.push "*"
  · exact h

theorem Uniform.adjustImplicit (h : Uniform first previous total p) (kind : Kind) :
    Uniform first previous total fun ν => (p ν).adjustImplicit kind := by
  obtain ⟨implicit, himplicit⟩ := h.implicit_eq
  simp only [Progress.adjustImplicit, closeImplicit, h.previous_eq, himplicit]
  split
  · exact (h.push "(").setImplicit fun _ => implicit + 1
  · split
    · exact (h.push _).setImplicit fun _ => 0
    · exact h

/-- Closing sums, each of which puts its loop into the frame around it. -/
theorem uniform_settle {declared declared' declared'' : Nat → Nat} {pending : Nat}
    {sums : Numbering → List OpenSum} {root : Numbering → Frame} {e : Numbering → Expression}
    (hsums : OpenSum.Uniform declared pending sums) (hroot : Frame.Uniform declared' root)
    (he : Expression.Uniform declared'' e) (o : ExprOptions) (balancedOnly : Bool) (next : Nat) :
    ∃ declared₁ declared₂ next' pending' sums' root', OpenSum.Uniform declared₁ pending' sums' ∧
      Frame.Uniform declared₂ root' ∧ next ≤ next' ∧ next' + pending' = next + pending ∧
      (∀ fold, declared₁ fold + declared₂ fold =
        declared fold + declared' fold + declared'' fold + between next next' fold) ∧
      ∀ ν, settle (ν.options o) balancedOnly (e ν) (root ν) (ν.number next) (sums ν) =
        (sums' ν, root' ν, ν.number next') := by
  -- From the innermost sum out. A sum that is closed moves from what is pending to what is declared,
  -- and its loop goes into the frame around it together with the expression `e`.
  induction hsums generalizing e declared'' next with
  | nil =>
    exact ⟨_, _, next, 0, _, _, .nil, hroot.add he, Nat.le_refl _, rfl, fun fold => by simp,
      fun ν => rfl⟩
  | @cons declared₁ declared₂ a b depth pending op top bottom frame rest htop hbottom hframe hrest
      ih =>
    simp only [settle_cons]
    split
    · refine ⟨_, _, next, _, _, _, .cons htop hbottom (hframe.add he) hrest, hroot, Nat.le_refl _,
        rfl, fun fold => ?_, fun ν => rfl⟩
      rw [between_self]
      omega
    · obtain ⟨folded, hfolded, hfold⟩ :=
        OpenSum.uniform_fold htop hbottom (hframe.add he) o op depth next
      obtain ⟨_, _, next', pending', sums', root', hsums', hroot', hle, htotal, hdeclared, hsettle⟩ :=
        ih hfolded (next + (a + b + 1))
      refine ⟨_, _, next', pending', sums', root', hsums', hroot', by omega, by omega,
        fun fold => ?_, fun ν => ?_⟩
      · have := hdeclared fold
        have := between_trans (Nat.le_add_right next (a + b + 1)) hle fold
        omega
      · rw [hfold]
        exact hsettle ν

theorem Uniform.closeSums (h : Uniform first previous total p) (o : ExprOptions)
    (balancedOnly : Bool) :
    Uniform first previous total fun ν => (p ν).closeSums (ν.options o) balancedOnly := by
  obtain @⟨_, _, next, pending, implicit, root, sums, hroot, hsums, hle, hdeclared⟩ := h
  obtain ⟨_, _, next', pending', sums', root', hsums', hroot', hnext, htotal, hdeclared', hsettle⟩ :=
    uniform_settle hsums hroot (Expression.uniform_pure "") o balancedOnly next
  have hblank : ∀ ν, settle (ν.options o) balancedOnly .blank (root ν) (ν.number next) (sums ν) =
      (sums' ν, root' ν, ν.number next') := hsettle
  simp only [Progress.closeSums, hblank, ← htotal]
  refine .intro hroot' hsums' (by omega) fun fold => ?_
  have := hdeclared fold
  have := hdeclared' fold
  have := between_trans hle hnext fold
  omega

theorem Uniform.countParen (h : Uniform first previous total p) (kind : Kind) :
    Uniform first previous total fun ν => (p ν).countParen kind := by
  obtain ⟨hroot, hsums, hle, hdeclared⟩ := h
  cases hsums with
  | nil => exact .intro hroot .nil hle hdeclared
  | cons htop hbottom hframe hrest =>
    simp only [countParen_eq, List.modifyHead_cons]
    exact .intro hroot (.cons htop hbottom hframe hrest) hle hdeclared

/-! ## A step -/

theorem Uniform.emit (h : Uniform first previous total p) (hc : Compilation.Uniform folds c)
    (o : ExprOptions) (kind : Kind) :
    Uniform first previous (total + folds) fun ν => (p ν).emit (ν.options o) kind (c ν) := by
  have hbefore : Uniform first previous total fun ν => (p ν).beforeText (ν.options o) kind := by
    simp only [beforeText]
    split
    · exact h.closeSums o true
    · exact h
  simp only [emit_eq]
  exact (hbefore.write hc Frame.add Frame.Uniform.add).countParen kind

theorem Uniform.takeBase (h : Uniform first previous total p) (hc : Compilation.Uniform folds c)
    (o : ExprOptions) :
    Uniform first none (total + folds) fun ν => (p ν).takeBase (ν.options o) (c ν) := by
  have hpop : Uniform first previous total fun ν => (p ν).modifyFrame Frame.pop :=
    h.modifyFrame Frame.Uniform.pop
  have hwrite := hpop.write hc
    (fun frame e => frame.add ⟨e.body, o.logBaseFunction ++ "(" ++ e.expr ++ ","⟩)
    fun hframe he => hframe.add (he.around _ _)
  have htaken := (hwrite.setImplicit (· + 1)).setPrevious none
  simpa [takeBase_eq, add, Numbering.options] using htaken

theorem Uniform.raise (h : Uniform first previous total p) (hc : Compilation.Uniform folds c)
    (o : ExprOptions) :
    Uniform first previous (total + folds) fun ν => (p ν).raise (ν.options o) (c ν) :=
  h.write hc (fun frame e => (frame.wrapOperand (o.powerFunction ++ "(")
    (", (" ++ e.expr ++ "))")).pushBody e.body) fun hframe he => hframe.wrapOperand he _ _ _

theorem Uniform.bang (h : Uniform first previous total p) (o : ExprOptions) :
    Uniform first previous total fun ν => (p ν).apply (ν.options o) kind .bang := by
  have hwrap : Uniform first previous total fun ν => (p ν).modifyFrame fun frame =>
      frame.wrapOperand (o.factorialFunction ++ "(") ")" := h.modifyFrame fun hframe => by
    simpa [Frame.pushBody, Expression.pure] using
      hframe.wrapOperand (Expression.uniform_pure "") (o.factorialFunction ++ "(") "" ")"
  exact hwrap

theorem Uniform.big {a b : Nat} {op : BigOp} {top bottom : Numbering → Compilation}
    (h : Uniform first previous total p) (htop : Compilation.Uniform a top)
    (hbottom : Compilation.Uniform b bottom) (o : ExprOptions) :
    Uniform first previous (total + (a + b + 1))
      fun ν => (p ν).apply (ν.options o) kind (.big op (top ν) (bottom ν)) := by
  obtain @⟨_, _, next, pending, implicit, root, sums, hroot, hsums, hle, hdeclared⟩ := h
  have htotal : next + pending + (a + b + 1) = next + (a + b + 1 + pending) := by omega
  rw [htotal]
  exact .intro hroot (.cons htop hbottom Frame.uniform_empty hsums) hle fun fold => by
    simpa using hdeclared fold

/-- Where a node comes directly after the logarithm its base counts, elsewhere its exponent. -/
theorem Uniform.advance {count : Bool → Nat} {meaning : Numbering → Meaning} {afterLog : Bool}
    (h : Uniform first previous total p) (hm : Meaning.Uniform count meaning) (o : ExprOptions)
    (hlog : ∀ ν, (p ν).afterLog = afterLog) :
    ∃ previous', Uniform first previous' (total + count afterLog)
      fun ν => (p ν).advance (ν.options o) kind (meaning ν) := by
  have hq := (h.separate kind).adjustImplicit kind
  simp only [Progress.advance, afterLog_separate, hlog]
  cases hm with
  | piece ht => exact ⟨_, (hq.emit ht o kind).setPrevious (some kind)⟩
  | bang => exact ⟨_, (hq.bang o).setPrevious (some kind)⟩
  | big htop hbottom => exact ⟨_, (hq.big htop hbottom o).setPrevious (some kind)⟩
  | neither => exact ⟨_, hq.setPrevious (some kind)⟩
  | exponent he => exact ⟨_, (hq.raise he o).setPrevious (some kind)⟩
  | base hb =>
    cases afterLog with
    | true => exact ⟨_, (h.separate kind).takeBase hb o⟩
    | false => exact ⟨_, hq.setPrevious (some kind)⟩
  | both he hb =>
    cases afterLog with
    | true => exact ⟨_, (h.separate kind).takeBase hb o⟩
    | false => exact ⟨_, (hq.raise he o).setPrevious (some kind)⟩

theorem afterLog_advance {p : Progress} {node : Node} :
    (p.advance o node.kind (node.meaning o)).afterLog = node.isLog := by
  obtain ⟨exponent, base, hmean, -, heq⟩ | ⟨-, heq⟩ := advance_eq o p node
  · have hkind := Node.kind_of_meaning_scripts hmean
    rw [heq, Node.isLog, hkind]
    rfl
  · rw [heq]
    rfl

/-- All nodes of a list together declare as many accumulators as there are sums to compile. -/
theorem Uniform.writeAll {nodes : List Node} {afterLog : Bool} (h : Uniform first previous total p)
    (o : ExprOptions) (hm : ∀ node ∈ nodes,
      Meaning.Uniform node.sumCount fun ν => node.meaning (ν.options o))
    (hlog : ∀ ν, (p ν).afterLog = afterLog) :
    ∃ previous', Uniform first previous' (total + Node.sumCountAll afterLog nodes)
      fun ν => Node.writeAll (ν.options o) nodes (p ν) := by
  -- A node is known by the one before it only as far as that is the logarithm.
  induction nodes generalizing p previous total afterLog with
  | nil => exact ⟨previous, h⟩
  | cons node nodes ih =>
    obtain ⟨previous', hstep⟩ := h.advance (hm node List.mem_cons_self) o hlog
    have hrest := ih hstep (fun n hn => hm n (List.mem_cons_of_mem _ hn)) fun ν => afterLog_advance
    simpa [Node.sumCountAll, Node.writeAll, Nat.add_assoc] using hrest

/-- Whatever is finished is uniform, and all of its accumulators are declared. -/
theorem Uniform.finish (h : Uniform first previous total p) (o : ExprOptions) :
    ∃ e, Expression.Uniform (between first total) e ∧
      ∀ ν, (p ν).finish (ν.options o) = (e ν, ν.number total) := by
  obtain ⟨implicit, himplicit⟩ := h.implicit_eq
  have hclose : Uniform first previous total fun ν => (p ν).close (ν.options o) := by
    simp only [close, himplicit]
    exact (h.push _).closeSums o false
  have hnone : ∀ ν, ((p ν).close (ν.options o)).sums = [] := fun ν => sums_settle
  simp only [finish_eq]
  generalize hq : (fun ν => (p ν).close (ν.options o)) = q at hclose
  simp only [funext_iff] at hq
  simp only [hq] at hnone ⊢
  obtain ⟨hroot, hsums, hle, hdeclared⟩ := hclose
  cases hsums with
  | nil => exact ⟨_, (hroot.finish.written o).congr hdeclared, fun ν => rfl⟩
  | cons => cases hnone .standard

end Progress

/-! ## Formulas -/

/-- A node is uniform once the lists that it holds are. -/
theorem Node.uniform_meaning {o : ExprOptions} {node : Node}
    (h : ∀ l ∈ node.lists,
      Compilation.Uniform (sumCountAll false l) fun ν => compile (ν.options o) l) :
    Meaning.Uniform node.sumCount fun ν => node.meaning (ν.options o) := by
  cases made h with
  | atom =>
    simp only [meaning]
    split
    · exact .bang
    · exact .piece (Compilation.uniform_pure _)
  | binary | function | paren => exact .piece (Compilation.uniform_pure _)
  | frac hn hd => exact .piece (hn.quotient hd)
  | squareRoot hr => exact .piece hr.squareRoot
  | indexedRoot hi hr => exact .piece (hi.indexedRoot hr)
  | noScripts => exact .neither
  | subscript hs => exact .base hs
  | exponent he => exact .exponent he
  | bothScripts he hs => exact .both he hs
  | wrapped wrap ha => exact .piece (ha.call wrap.name)
  | big _ ht hb => exact .big ht hb

/-- Every formula is uniform, with as many accumulators as there are sums to compile. -/
theorem Node.uniform_compile (o : ExprOptions) (nodes : List Node) :
    Compilation.Uniform (sumCountAll false nodes) fun ν => compile (ν.options o) nodes := by
  have hlist : ∀ nodes : List Node,
      (∀ node ∈ nodes, Meaning.Uniform node.sumCount fun ν => node.meaning (ν.options o)) →
      Compilation.Uniform (sumCountAll false nodes) fun ν => compile (ν.options o) nodes := by
    intro nodes hm first
    obtain ⟨previous, hwritten⟩ := (Progress.uniform_start first).writeAll o hm fun _ => rfl
    exact hwritten.finish o
  have hall := (Node.induction
    (P := fun node => Meaning.Uniform node.sumCount fun ν => node.meaning (ν.options o))
    (Q := fun nodes => ∀ node ∈ nodes,
      Meaning.Uniform node.sumCount fun ν => node.meaning (ν.options o))
    (fun _ h => uniform_meaning fun l hl => hlist l (h l hl)) (by simp)
    fun _ _ hnode hnodes => List.forall_mem_cons.mpr ⟨hnode, hnodes⟩).2
  exact hlist nodes (hall nodes)

namespace Numbering

variable {ν : Numbering} {i j k : Nat}

/-- Accumulators have different names until all numbers are used. -/
theorem eq_of_name_eq (h : ν.name i = ν.name j) (hi : i < ν.largest + 1) (hj : j < ν.largest + 1) :
    i = j := by
  have hdigits : Nat.toDigits 10 (ν.number i) = Nat.toDigits 10 (ν.number j) := by
    have := congrArg String.toList h
    simpa [name, Nat.toString_eq_repr, Nat.toList_repr] using this
  have hnumber : ν.number i = ν.number j := by
    rw [← Nat.ofDigitChars_ten_toDigits (n := ν.number i), hdigits, Nat.ofDigitChars_ten_toDigits]
  have hnext := ν.next_le
  have hmod : ∀ k < ν.largest + 1, ν.number k = if ν.next + k < ν.largest + 1 then ν.next + k
      else ν.next + k - (ν.largest + 1) := by
    intro k hk
    rw [number]
    split
    · exact Nat.mod_eq_of_lt ‹_›
    · rw [Nat.mod_eq_sub_mod (by omega), Nat.mod_eq_of_lt (by omega)]
  rw [hmod i hi, hmod j hj] at hnumber
  split at hnumber <;> split at hnumber <;> omega

theorem nodup_names (hk : k ≤ ν.largest + 1) : ((List.range k).map ν.name).Nodup := by
  refine List.pairwise_map.mpr (List.nodup_range.imp_of_mem fun hi hj hne h => hne ?_)
  rw [List.mem_range] at hi hj
  exact eq_of_name_eq h (by omega) (by omega)

end Numbering

/-- Compiling a formula numbers its accumulators in a row and declares each of them once. Whatever
accumulators are called, the result is the same program with these names: loops that mention, in
their headers and in their arguments, only what is declared before them in the same block or in one
around it, and an expression that mentions only what the statements before it declare. -/
theorem Compiler.compile_accumulators (o : ExprOptions) (nodes : List Node) :
    ∃ (loops : Loops) (expr : Marked),
      (∀ ν : Numbering, (ν.compiler o).compile nodes = (⟨loops.text ν, expr.text ν⟩,
        { ν.compiler o with
          counter := (ν.next + Node.sumCountAll false nodes) % (ν.largest + 1) })) ∧
      (∀ fold, loops.declarations fold = if fold < Node.sumCountAll false nodes then 1 else 0) ∧
      loops.InScope [] ∧ expr.Mentions loops.declared ∧
      ∀ ν : Numbering, (ν.next + Node.sumCountAll false nodes) % (ν.largest + 1) ≤ ν.largest ∧
        (Node.sumCountAll false nodes ≤ ν.largest + 1 →
          ((List.range (Node.sumCountAll false nodes)).map ν.name).Nodup) := by
  obtain ⟨e, ⟨loops, expr, he, hclosed, hdeclared⟩, hcompile⟩ := Node.uniform_compile o nodes 0
  refine ⟨loops, expr, fun ν => ?_, fun fold => ?_, hclosed.inScope,
    hclosed.mentions expr List.mem_cons_self, fun ν => ⟨?_, Numbering.nodup_names⟩⟩
  · have h := hcompile ν
    rw [Numbering.number_zero, Nat.zero_add, he] at h
    simp only [Compiler.compile, Numbering.compiler, h]
    rfl
  · simp [hdeclared, between]
  · exact Nat.le_of_lt_succ (Nat.mod_lt _ (Nat.succ_pos _))

/-- The first two sums of a compiler are added up in sum0 and sum1. -/
theorem Compiler.compile_accumulators_of_two :
    (∃ (loops : Loops) (expr : Marked),
      (Compiler.new .standard).compile [.emptyBig .sum, .binary .plus, .emptyBig .product] =
        (⟨loops.text .standard, expr.text .standard⟩, ⟨.standard, 2⟩) ∧
      loops.declarations 0 = 1 ∧ loops.declarations 1 = 1 ∧ loops.InScope [] ∧
      expr.Mentions loops.declared) ∧
    2 ≤ Numbering.standard.largest + 1 ∧ ["sum0", "sum1"].Nodup := by
  obtain ⟨loops, expr, hcompile, hdeclared, hscope, hmentions, hnames⟩ :=
    compile_accumulators .standard [.emptyBig .sum, .binary .plus, .emptyBig .product]
  have hlargest : 2 ≤ Numbering.standard.largest + 1 := by decide
  have hlist : (List.range 2).map Numbering.standard.name = ["sum0", "sum1"] := by decide +kernel
  exact ⟨⟨loops, expr, hcompile .standard, hdeclared 0, hdeclared 1, hscope, hmentions⟩, hlargest,
    hlist ▸ (hnames .standard).2 hlargest⟩

end FormulaEditor
