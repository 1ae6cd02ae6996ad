import FormulaEditor.Proofs.Expression.Loops

/-!
# Expressions whatever the names are

How accumulators are named and numbered has no effect on an expression but for the names in it. An
expression for every numbering is uniform if it is one and the same program with different names:
loops in scope of each other, and a text that mentions what they declare. Each part of compiling
keeps uniform what is uniform.
-/

namespace FormulaEditor

/-- The numbers from one up to another are counted once. -/
def between (first next : Nat) (fold : Nat) : Nat :=
  if first ≤ fold ∧ fold < next then 1 else 0

@[simp] theorem between_self (first fold : Nat) : between first first fold = 0 :=
  if_neg (by omega)

theorem between_trans {first middle next : Nat} (h : first ≤ middle) (h' : middle ≤ next)
    (fold : Nat) : between first middle fold + between middle next fold = between first next fold := by
  unfold between
  split <;> split <;> split <;> omega

/-- Nothing that the texts mention is declared elsewhere than in the loops before them. -/
structure Loops.Closed (loops : Loops) (texts : List Marked) : Prop where
  inScope : loops.InScope []
  mentions : ∀ text ∈ texts, text.Mentions loops.declared

/-- The expression is the same program for every numbering. Its loops declare each accumulator as
often as said. -/
def Expression.Uniform (declared : Nat → Nat) (e : Numbering → Expression) : Prop :=
  ∃ (loops : Loops) (expr : Marked), (∀ ν, e ν = ⟨loops.text ν, expr.text ν⟩) ∧
    loops.Closed [expr] ∧ ∀ fold, loops.declarations fold = declared fold

/-- The frame holds the same loops and tokens for every numbering. -/
def Frame.Uniform (declared : Nat → Nat) (frame : Numbering → Frame) : Prop :=
  ∃ (loops : Loops) (tokens : List Marked),
    (∀ ν, frame ν = ⟨loops.text ν, tokens.map (Marked.text ν)⟩) ∧
    loops.Closed tokens ∧ ∀ fold, loops.declarations fold = declared fold

/-- From any accumulator on, what is compiled is uniform and declares the next few. -/
def Compilation.Uniform (folds : Nat) (c : Numbering → Compilation) : Prop :=
  ∀ first, ∃ e, Expression.Uniform (between first (first + folds)) e ∧
    ∀ ν, c ν (ν.number first) = (e ν, ν.number (first + folds))

section Closed

variable {loops more : Loops} {texts moreTexts : List Marked}

theorem Loops.closed_none (h : ∀ text ∈ texts, ∀ fold, .name fold ∉ text) :
    Loops.none.Closed texts :=
  ⟨trivial, fun text ht fold hmem => absurd hmem (h text ht fold)⟩

theorem Loops.Closed.append (h : loops.Closed texts) (h' : more.Closed moreTexts) :
    (loops.append more).Closed (texts ++ moreTexts) where
  inScope := h.inScope.append (h'.inScope.mono (List.nil_subset _))
  mentions := by
    intro text ht
    rw [Loops.declared_append]
    rcases List.mem_append.mp ht with ht | ht
    · exact (h.mentions text ht).mono (List.subset_append_left _ _)
    · exact (h'.mentions text ht).mono (List.subset_append_right _ _)

theorem Loops.Closed.of_mentioned (h : loops.Closed texts)
    (hsub : ∀ text ∈ moreTexts, ∀ fold, .name fold ∈ text → ∃ t ∈ texts, .name fold ∈ t) :
    loops.Closed moreTexts where
  inScope := h.inScope
  mentions := by
    intro text ht fold hmem
    obtain ⟨t, ht, hmem⟩ := hsub text ht fold hmem
    exact h.mentions t ht fold hmem

end Closed

/-! ## Expressions -/

namespace Expression

variable {declared declared' : Nat → Nat} {e f : Numbering → Expression}

theorem uniform_pure (s : String) : Uniform (fun _ => 0) fun _ => pure s :=
  ⟨.none, .ofText s, fun _ => by rw [Marked.text_ofText]; rfl,
    Loops.closed_none (by simp [Marked.ofText]), fun _ => rfl⟩

/-- One after the other. -/
theorem Uniform.append (he : Uniform declared e) (hf : Uniform declared' f) :
    Uniform (fun fold => declared fold + declared' fold)
      fun ν => ⟨(e ν).body ++ (f ν).body, (e ν).expr ++ (f ν).expr⟩ := by
  obtain ⟨loops, expr, heq, hclosed, hdeclared⟩ := he
  obtain ⟨loops', expr', heq', hclosed', hdeclared'⟩ := hf
  refine ⟨loops.append loops', expr ++ expr', fun ν => ?_,
    (hclosed.append hclosed').of_mentioned ?_, fun fold => ?_⟩
  · simp [heq, heq']
  · simp
  · rw [Loops.declarations_append, hdeclared, hdeclared']

/-- Text around the expression. -/
theorem Uniform.around (h : Uniform declared e) (before behind : String) :
    Uniform declared fun ν => ⟨(e ν).body, before ++ (e ν).expr ++ behind⟩ := by
  have := ((uniform_pure before).append h).append (uniform_pure behind)
  simpa [pure] using this

theorem Uniform.congr (h : Uniform declared e) (hd : ∀ fold, declared fold = declared' fold) :
    Uniform declared' e :=
  funext hd ▸ h

theorem Uniform.promoteIntegers (h : Uniform declared e) :
    Uniform declared fun ν => (e ν).promoteIntegers := by
  obtain ⟨loops, expr, heq, hclosed, hdeclared⟩ := h
  refine ⟨loops.promoteIntegers, expr.promoteIntegers, fun ν => ?_, ⟨hclosed.inScope.promoteIntegers,
    ?_⟩, fun fold => ?_⟩
  · simp only [heq, Expression.promoteIntegers, Loops.text_promoteIntegers,
      Marked.text_promoteIntegers]
  · rw [Loops.declared_promoteIntegers]
    exact fun text ht => List.mem_singleton.mp ht ▸
      (hclosed.mentions expr List.mem_cons_self).promoteFrom _
  · rw [Loops.declarations_promoteIntegers, hdeclared]

theorem Uniform.written (h : Uniform declared e) (o : ExprOptions) :
    Uniform declared fun ν => (e ν).written (ν.options o) := by
  unfold Expression.written
  cases hp : o.promotesIntegers with
  | true => simpa [Numbering.options, hp] using h.promoteIntegers
  | false => simpa [Numbering.options, hp] using h

/-- A loop declares its accumulator besides what it depends on. -/
theorem uniform_loopText {lower upper inner : Nat → Nat} {init last argument : Numbering → Expression}
    (hi : Uniform lower init) (hl : Uniform upper last) (ha : Uniform inner argument) (op : BigOp)
    (own : Nat) :
    Uniform (fun fold => lower fold + upper fold + (if own = fold then 1 else 0) + inner fold)
      fun ν => OpenSum.loopText op (ν.name own) (init ν) (last ν) (argument ν) := by
  obtain ⟨loopsI, exprI, heqI, hclosedI, hdeclaredI⟩ := hi
  obtain ⟨loopsL, exprL, heqL, hclosedL, hdeclaredL⟩ := hl
  obtain ⟨loopsA, exprA, heqA, hclosedA, hdeclaredA⟩ := ha
  have hinit : exprI.Mentions loopsI.declared := hclosedI.mentions _ List.mem_cons_self
  have hlast : exprL.Mentions loopsL.declared := hclosedL.mentions _ List.mem_cons_self
  have hargument : exprA.Mentions loopsA.declared := hclosedA.mentions _ List.mem_cons_self
  refine ⟨.loop .none op own loopsI loopsL exprI exprI.loopVariable exprL loopsA exprA,
    [.name own], fun ν => ?_, ⟨⟨trivial, ?_, ?_, ⟨?_, ?_, ?_⟩, ?_, ?_⟩, ?_⟩, fun fold => ?_⟩
  · have hname : Marked.text ν [.name own] = ν.name own := by
      simp [Marked.text_cons, Piece.chars]
    simp only [heqI, heqL, heqA, Loops.text_loop, Loops.text_none, Marked.text_loopVariable, hname,
      String.empty_append]
    rfl
  · exact hclosedI.inScope.mono (List.nil_subset _)
  · exact hclosedL.inScope.mono (List.nil_subset _)
  · exact hinit.mono fun fold h => by simp [h]
  · exact hinit.loopVariable.mono fun fold h => by simp [h]
  · exact hlast.mono fun fold h => by simp [h]
  · exact hclosedA.inScope.mono (List.nil_subset _)
  · exact hargument.mono (List.subset_append_right _ _)
  · intro text ht fold hmem
    obtain rfl := List.mem_singleton.mp ht
    obtain rfl : fold = own := by simpa using hmem
    simp [Loops.declared]
  · simp [Loops.declarations, hdeclaredI, hdeclaredL, hdeclaredA]

end Expression

/-! ## Frames -/

namespace Frame

variable {declared declared' : Nat → Nat} {frame : Numbering → Frame} {e : Numbering → Expression}
  {ν μ : Numbering} {tokens : List Marked} {token : Marked}

theorem uniform_empty : Uniform (fun _ => 0) fun _ => empty :=
  ⟨.none, [], fun _ => rfl, Loops.closed_none (by simp), fun _ => rfl⟩

theorem Uniform.add (h : Uniform declared frame) (he : Expression.Uniform declared' e) :
    Uniform (fun fold => declared fold + declared' fold) fun ν => (frame ν).add (e ν) := by
  obtain ⟨loops, tokens, heq, hclosed, hdeclared⟩ := h
  obtain ⟨loops', expr, heq', hclosed', hdeclared'⟩ := he
  refine ⟨loops.append loops', (if expr.isEmpty then tokens else expr :: tokens), fun ν => ?_,
    (hclosed.append hclosed').of_mentioned ?_, fun fold => ?_⟩
  · simp only [heq, heq', Frame.add, pushBody, push, Marked.isEmpty_text, Loops.text_append]
    split <;> rfl
  · intro text ht fold hmem
    split at ht
    · exact ⟨text, by simp [ht], hmem⟩
    · exact ⟨text, by simpa [or_comm] using ht, hmem⟩
  · rw [Loops.declarations_append, hdeclared, hdeclared']

theorem Uniform.push (h : Uniform declared frame) (s : String) :
    Uniform declared fun ν => (frame ν).push s := by
  simpa [Frame.add, pushBody, Expression.pure] using h.add (Expression.uniform_pure s)

theorem Uniform.pop (h : Uniform declared frame) : Uniform declared fun ν => (frame ν).pop := by
  obtain ⟨loops, tokens, heq, hclosed, hdeclared⟩ := h
  refine ⟨loops, tokens.tail, fun ν => ?_, hclosed.of_mentioned ?_, hdeclared⟩
  · simp [heq, Frame.pop]
  · exact fun text ht fold hmem => ⟨text, List.mem_of_mem_tail ht, hmem⟩

theorem Uniform.finish (h : Uniform declared frame) :
    Expression.Uniform declared fun ν => (frame ν).finish := by
  obtain ⟨loops, tokens, heq, hclosed, hdeclared⟩ := h
  refine ⟨loops, tokens.reverse.flatten, fun ν => ?_, hclosed.of_mentioned ?_, hdeclared⟩
  · simp only [heq, Frame.finish, ← List.map_reverse, Marked.text_flatten]
  · intro text ht fold hmem
    obtain rfl := List.mem_singleton.mp ht
    obtain ⟨t, ht, hmem⟩ := List.mem_flatten.mp hmem
    exact ⟨t, List.mem_reverse.mp ht, hmem⟩

/-! ### The last operand -/

theorem closingExcess_text : closingExcess (token.text ν) = closingExcess (token.text μ) := by
  induction token with
  | nil => rfl
  | cons p token ih =>
    rw [Marked.text_cons, Marked.text_cons, closingExcess_append, closingExcess_append, ih]
    cases p with
    | char c => rfl
    | name fold =>
      simp only [Piece.chars, String.ofList_toList,
        closingExcess_of_parenFree Numbering.parenFree_name]

theorem isBoundary_text : isBoundary (token.text ν) = isBoundary (token.text μ) := by
  have hsign : ∀ c, Text.isNameChar c = false →
      (token.text ν == String.singleton c) = (token.text μ == String.singleton c) := by
    intro c hc
    rw [Bool.eq_iff_iff, beq_iff_eq, beq_iff_eq, Marked.text_eq_singleton_iff hc,
      Marked.text_eq_singleton_iff hc]
  have hplus := hsign '+' (by decide)
  have hminus := hsign '-' (by decide)
  have htimes := hsign '*' (by decide)
  have hequals := hsign '=' (by decide)
  have hsigns : isBoundary (token.text ν) = (token.text ν == String.singleton '+' ||
      token.text ν == String.singleton '-' || token.text ν == String.singleton '*' ||
      token.text ν == String.singleton '=') := rfl
  rw [hsigns, hplus, hminus, htimes, hequals]
  rfl

theorem operandLength_text (depth : Int) : operandLength depth (tokens.map (Marked.text ν)) =
    operandLength depth (tokens.map (Marked.text μ)) := by
  induction tokens generalizing depth with
  | nil => rfl
  | cons token tokens ih =>
    simp only [List.map_cons, operandLength, closingExcess_text (ν := ν) (μ := μ),
      isBoundary_text (ν := ν) (μ := μ), ih]

/-- Putting a call around the last operand, with what the call depends on. -/
theorem Uniform.wrapOperand (h : Uniform declared frame) (he : Expression.Uniform declared' e)
    (before middle after : String) : Uniform (fun fold => declared fold + declared' fold)
      fun ν => ((frame ν).wrapOperand before (middle ++ (e ν).expr ++ after)).pushBody (e ν).body := by
  obtain ⟨loops, tokens, heq, hclosed, hdeclared⟩ := h
  obtain ⟨loops', expr, heq', hclosed', hdeclared'⟩ := he
  -- The operand is as long for any numbering as for a certain one.
  obtain ⟨size, hsize⟩ : ∃ size, ∀ ν, operandLength 0 (tokens.map (Marked.text ν)) = size :=
    ⟨_, fun ν => operandLength_text (μ := .standard) 0⟩
  refine ⟨loops.append loops', (.ofText middle ++ expr ++ .ofText after) ::
    tokens.take size ++ .ofText before :: tokens.drop size, fun ν => ?_,
    (hclosed.append hclosed').of_mentioned ?_, fun fold => ?_⟩
  · simp [heq, heq', Frame.wrapOperand, pushBody, hsize, String.append_assoc]
  · intro text ht fold hmem
    simp only [List.cons_append, List.mem_cons, List.mem_append] at ht
    obtain rfl | ht | rfl | ht := ht
    · refine ⟨expr, by simp, ?_⟩
      simpa [Marked.ofText] using hmem
    · exact ⟨text, by simp [List.mem_of_mem_take ht], hmem⟩
    · simp [Marked.ofText] at hmem
    · exact ⟨text, by simp [List.mem_of_mem_drop ht], hmem⟩
  · rw [Loops.declarations_append, hdeclared, hdeclared']

end Frame

/-! ## What nodes stand for -/

namespace Compilation

variable {a b : Nat} {c d : Numbering → Compilation} {declared : Nat → Nat}

theorem uniform_pure (s : String) : Uniform 0 fun _ counter => (.pure s, counter) := by
  intro first
  exact ⟨fun _ => .pure s, (Expression.uniform_pure s).congr fun fold => by simp, fun ν => rfl⟩

/-- Two expressions, one compiled after the other. -/
theorem Uniform.two (hc : Uniform a c) (hd : Uniform b d)
    (join : Expression → Expression → Expression)
    (hjoin : ∀ {declared declared' : Nat → Nat} {e f : Numbering → Expression},
      Expression.Uniform declared e → Expression.Uniform declared' f →
        Expression.Uniform (fun fold => declared fold + declared' fold) fun ν => join (e ν) (f ν)) :
    Uniform (a + b) fun ν n => (join (c ν n).1 (d ν (c ν n).2).1, (d ν (c ν n).2).2) := by
  intro first
  obtain ⟨e, he, hce⟩ := hc first
  obtain ⟨f, hf, hdf⟩ := hd (first + a)
  refine ⟨fun ν => join (e ν) (f ν), (hjoin he hf).congr fun fold => ?_, fun ν => ?_⟩
  · rw [← Nat.add_assoc]
    exact between_trans (by omega) (by omega) fold
  · simp only [hce, hdf, Nat.add_assoc]

theorem Uniform.quotient (hc : Uniform a c) (hd : Uniform b d) :
    Uniform (a + b) fun ν => Node.quotient (c ν) (d ν) :=
  hc.two hd (fun n d => ⟨n.body ++ d.body, "(" ++ n.expr ++ ")/(" ++ d.expr ++ ")"⟩) fun he hf => by
    simpa [String.append_assoc] using (he.around "(" ")/(").append (hf.around "" ")")

theorem Uniform.indexedRoot (hindex : Uniform a c) (hradicand : Uniform b d) :
    Uniform (b + a) fun ν => Node.indexedRoot (c ν) (d ν) :=
  hradicand.two hindex
    (fun r i => ⟨r.body ++ i.body, "pow(" ++ r.expr ++ ", 1.0/(" ++ i.expr ++ "))"⟩) fun he hf => by
    simpa [String.append_assoc] using (he.around "pow(" ", 1.0/(").append (hf.around "" "))")

theorem Uniform.call (h : Uniform a c) (name : String) :
    Uniform a fun ν => Node.call name (c ν) := by
  intro first
  obtain ⟨e, he, hc⟩ := h first
  refine ⟨_, he.around (name ++ "(") ")", fun ν => ?_⟩
  simp only [Node.call, hc]

theorem Uniform.squareRoot (h : Uniform a c) : Uniform a fun ν => Node.squareRoot (c ν) :=
  h.call "sqrt"

end Compilation

/-- The meaning is the same for every numbering but for names. It is known how many sums there are
in it, where the node comes directly after the logarithm and where it does not. -/
inductive Meaning.Uniform : (afterLog : Bool → Nat) → (Numbering → Meaning) → Prop
  | piece {folds : Nat} {text : Numbering → Compilation} (h : Compilation.Uniform folds text) :
    Uniform (fun _ => folds) fun ν => .piece (text ν)
  | bang : Uniform (fun _ => 0) fun _ => .bang
  | big {op : BigOp} {a b : Nat} {top bottom : Numbering → Compilation}
    (htop : Compilation.Uniform a top) (hbottom : Compilation.Uniform b bottom) :
    Uniform (fun _ => a + b + 1) fun ν => .big op (top ν) (bottom ν)
  | neither : Uniform (fun _ => 0) fun _ => .scripts none none
  | exponent {a : Nat} {exponent : Numbering → Compilation} (h : Compilation.Uniform a exponent) :
    Uniform (fun _ => a) fun ν => .scripts (some (exponent ν)) none
  | base {b : Nat} {base : Numbering → Compilation} (h : Compilation.Uniform b base) :
    Uniform (fun afterLog => if afterLog then b else 0) fun ν => .scripts none (some (base ν))
  | both {a b : Nat} {exponent base : Numbering → Compilation} (h : Compilation.Uniform a exponent)
    (hbase : Compilation.Uniform b base) : Uniform (fun afterLog => if afterLog then b else a)
      fun ν => .scripts (some (exponent ν)) (some (base ν))

end FormulaEditor
