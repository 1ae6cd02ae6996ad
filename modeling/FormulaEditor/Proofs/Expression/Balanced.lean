import FormulaEditor.Proofs.Expression.Steps
import FormulaEditor.Proofs.Node.Depth

/-!
# Balanced expressions

A formula whose parens match, and in which no paren behind a bare function name is stranded, becomes
an expression with balanced parens, and so do the statements it depends on. The variable of a loop
is cut out of the lower limit, so it has to be balanced by itself.
-/

namespace FormulaEditor

/-- The texts that the node is written with have no parens. -/
def Node.ParenFree : Node → Prop
  | .atom text => FormulaEditor.ParenFree text
  | .function name => FormulaEditor.ParenFree name
  | _ => True

instance : DecidablePred Node.ParenFree := fun node => by
  unfold Node.ParenFree
  split <;> infer_instance

/-- The variable that the lower limit of a sum assigns is balanced, whatever number the first
accumulator of the limit gets. -/
def Node.LoopBalanced (o : ExprOptions) : Node → Prop
  | .big _ _ bottom => ∀ n, Balanced (OpenSum.loopVariable (compile o bottom n).1.expr)
  | _ => True

section Texts

variable {s t : String}

theorem ParenFree.unitalicize (h : ParenFree s) : ParenFree (Text.unitalicize s) := by
  intro c hc
  rw [Text.unitalicize, String.toList_ofList, List.mem_map] at hc
  obtain ⟨d, hd, rfl⟩ := hc
  constructor
  · intro hp
    exact (h d hd).1 (Text.eq_of_plain_eq (by decide) (by decide +kernel) hp)
  · intro hp
    exact (h d hd).2 (Text.eq_of_plain_eq (by decide) (by decide +kernel) hp)

theorem parenFree_greekLetters : ∀ entry ∈ Symbol.greekLetters, ParenFree entry.1 := by
  decide +kernel

theorem parenFree_symbolText (h : ParenFree s) : ParenFree (Node.symbolText s) := by
  unfold Node.symbolText
  simp only
  split
  · rename_i c _
    cases hg : Symbol.greekIdentifier? c with
    | none => exact h.unitalicize
    | some name =>
      obtain ⟨entry, hentry, rfl⟩ := Option.map_eq_some_iff.mp hg
      exact parenFree_greekLetters entry (by simpa using List.mem_of_find?_eq_some hentry)
  · exact h.unitalicize

theorem parenFree_symbol (op : BinaryOp) : ParenFree op.symbol := by
  cases op <;> decide

theorem parenFree_wrap (wrap : Wrap) : ParenFree wrap.name := by
  cases wrap <;> decide

end Texts

namespace Compilation

variable {numerator denominator index radicand argument : Compilation} {name : String}

theorem Even.quotient (hn : numerator.Even) (hd : denominator.Even) :
    (Node.quotient numerator denominator).Even := fun n => by
  have hopen : Leads "(" 0 1 := rfl
  have hbar : Leads ")/(" 1 1 := rfl
  have hclose : Leads ")" 1 0 := rfl
  refine ⟨(hn n).body.append (hd _).body, balanced_iff.mpr ?_⟩
  exact (((hopen.append ((hn n).expr.leads 1)).append hbar).append ((hd _).expr.leads 1)).append
    hclose

theorem Even.squareRoot (hr : radicand.Even) : (Node.squareRoot radicand).Even := fun n => by
  have hopen : Leads "sqrt(" 0 1 := rfl
  have hclose : Leads ")" 1 0 := rfl
  exact ⟨(hr n).body, balanced_iff.mpr ((hopen.append ((hr n).expr.leads 1)).append hclose)⟩

theorem Even.indexedRoot (hi : index.Even) (hr : radicand.Even) :
    (Node.indexedRoot index radicand).Even := fun n => by
  have hopen : Leads "pow(" 0 1 := rfl
  have hinner : Leads ", 1.0/(" 1 2 := rfl
  have hclose : Leads "))" 2 0 := rfl
  refine ⟨(hr n).body.append (hi _).body, balanced_iff.mpr ?_⟩
  exact (((hopen.append ((hr n).expr.leads 1)).append hinner).append ((hi _).expr.leads 2)).append
    hclose

theorem Even.call (hn : ParenFree name) (ha : argument.Even) : (Node.call name argument).Even :=
  fun n => ⟨(ha n).body, Balanced.call hn (ha n).expr⟩

end Compilation

namespace Meaning

variable {o : ExprOptions} {node : Node} {kind : Kind} {text : Compilation}

/-- An expression by itself fits where no paren is said to be. -/
theorem fits_piece (ht : text.Even) (hl : kind.isLeftParen = false)
    (hr : kind.isRightParen = false) : (Meaning.piece text).Fits kind := fun n => by
  refine ⟨(ht n).body, fun k j hk => ?_⟩
  obtain rfl : k = j := by simpa [openAfter, hl, hr] using hk
  exact (ht n).expr.leads k

theorem fits_paren (c : Char) :
    (Node.literal (if isLeftParen c then "(" else ")")).Fits (.paren c) := fun n => by
  refine ⟨(by decide : ParenFree "").balanced, fun k j hk => ?_⟩
  simp only [openAfter, Kind.isLeftParen, Kind.isRightParen] at hk
  cases hc : isLeftParen c with
  | true =>
    obtain rfl : k + 1 = j := by simpa [hc] using hk
    have hopen : Leads "(" 0 1 := rfl
    simpa [Nat.add_comm, Expression.pure] using hopen.shift k
  | false =>
    obtain ⟨hk0, rfl⟩ : k ≠ 0 ∧ k - 1 = j := by simpa [hc] using hk
    obtain ⟨k, rfl⟩ := Nat.exists_eq_succ_of_ne_zero hk0
    have hclose : Leads ")" 1 0 := rfl
    simpa [Nat.add_comm, Expression.pure] using hclose.shift k

end Meaning

/-- A node fits its kind once the lists it holds are balanced. -/
theorem Node.meaning_fits {o : ExprOptions} {node : Node} (hn : node.ParenFree)
    (hv : node.LoopBalanced o) (hl : ∀ l ∈ node.lists, Compilation.Even (compile o l)) :
    (node.meaning o).Fits node.kind := by
  have hpure : ∀ {s : String}, FormulaEditor.ParenFree s →
      Compilation.Even fun counter => (Expression.pure s, counter) := fun h n =>
    Expression.even_pure h
  have hsome : ∀ {c : Compilation}, c.Even → ∀ d ∈ some c, d.Even := by
    rintro c hc _ ⟨⟩
    exact hc
  cases made hl with
  | atom =>
    simp only [meaning]
    split
    · trivial
    · exact Meaning.fits_piece (hpure (parenFree_symbolText hn)) rfl rfl
  | binary op => exact Meaning.fits_piece (hpure (parenFree_symbol op)) rfl rfl
  | function => exact Meaning.fits_piece (hpure hn) rfl rfl
  | paren c => exact Meaning.fits_paren c
  | frac hnum hden => exact Meaning.fits_piece (hnum.quotient hden) rfl rfl
  | squareRoot hr => exact Meaning.fits_piece hr.squareRoot rfl rfl
  | indexedRoot hi hr => exact Meaning.fits_piece (hi.indexedRoot hr) rfl rfl
  | noScripts => exact ⟨by simp, by simp⟩
  | subscript hs => exact ⟨by simp, hsome hs⟩
  | exponent he => exact ⟨hsome he, by simp⟩
  | bothScripts he hs => exact ⟨hsome he, hsome hs⟩
  | wrapped wrap ha => exact Meaning.fits_piece (.call (parenFree_wrap wrap) ha) rfl rfl
  | big _ ht hb => exact ⟨ht, hb, hv⟩

namespace Progress

variable {o : ExprOptions} {p : Progress} {m : Margin} {k : Nat}

/-- What is balanced when it is finished. -/
theorem even_finish (ho : o.ParenFree) (h : Stacked p.root p.implicit p.sums 0) :
    (p.finish o).1.Even := by
  have hpush : Stacked (p.push (repeated p.implicit ")")).root 0
      (p.push (repeated p.implicit ")")).sums 0 :=
    stacked_modifyFrame _ h fun d hd => hd.push (leads_repeated _ d)
  obtain ⟨hstack, hnil, -⟩ := hpush.settle (e := .blank) ho false
    (p.push (repeated p.implicit ")")).counter (Expression.even_pure (by decide)) fun _ => rfl
  rw [hnil rfl] at hstack
  have hroot := Frame.Holds.finish hstack
  rw [finish_eq, Expression.written]
  split
  · exact hroot.promoteIntegers
  · exact hroot

/-- Writing the rest of a list closes the parens that its nodes close. -/
theorem stacked_writeAll (ho : o.ParenFree) {nodes : List Node}
    (hfit : ∀ node ∈ nodes, (node.meaning o).Fits node.kind)
    (hs : Node.strandsFrom m nodes = false) (hlog : p.Logged) (hm : p.At m)
    (h : Stacked p.root p.implicit p.sums k)
    (hk : openAfter Kind.isLeftParen Kind.isRightParen k (nodes.map Node.kind) = some 0) :
    Stacked (Node.writeAll o nodes p).root (Node.writeAll o nodes p).implicit
      (Node.writeAll o nodes p).sums 0 := by
  induction nodes generalizing p m k with
  | nil =>
    obtain rfl : k = 0 := by simpa [openAfter] using hk
    exact h
  | cons node nodes ih =>
    obtain ⟨hnode, hrest⟩ := Bool.or_eq_false_iff.mp hs
    rw [List.map_cons, ← List.singleton_append, openAfter_append] at hk
    obtain ⟨j, hj, hk⟩ := Option.bind_eq_some_iff.mp hk
    exact ih (fun n hn => hfit n (List.mem_cons_of_mem _ hn)) hrest logged_advance hm.advance
      (stacked_advance ho h hlog hm hnode hj (hfit node List.mem_cons_self)) hk

end Progress

/-- The parens of the list match and none is stranded, its names have no parens, and its loop
variables are balanced. -/
structure Node.Even (o : ExprOptions) (nodes : List Node) : Prop where
  matched : (ParenMatches.of (nodes.map kind)).isBalanced = true
  strands : Node.strands nodes = false
  parenFree : ∀ node ∈ nodes, node.ParenFree
  loopBalanced : ∀ node ∈ nodes, node.LoopBalanced o

/-- The expression of a formula has balanced parens, and so do the statements it depends on, if in
every list the parens match and none is stranded behind a function name. -/
theorem Node.compile_even {o : ExprOptions} {nodes : List Node} (ho : o.ParenFree)
    (h : EveryList (Node.Even o) nodes) (counter : Nat) : (compile o nodes counter).1.Even := by
  induction h generalizing counter with
  | @intro nodes here _ ih =>
    refine Progress.even_finish ho (Progress.stacked_writeAll ho (fun node hn => ?_) here.strands
      (Progress.logged_start counter) (Progress.at_start counter) Frame.holds_empty
      (openAfter_of_isBalanced here.matched))
    exact meaning_fits (here.parenFree node hn) (here.loopBalanced node hn)
      fun l hl n => ih node hn l hl n

/-- A list of leaves without sums has nothing inside that could be uneven. -/
theorem Node.everyList_even_of_leaves {o : ExprOptions} {nodes : List Node} (h : Node.Even o nodes)
    (hl : ∀ node ∈ nodes, node.lists = []) : EveryList (Node.Even o) nodes :=
  .of_leaves h hl

/-- The sine of a variable times a sum has balanced parens: sin(x)∑. -/
theorem Node.compile_even_product :
    EveryList (Node.Even .standard) [.function "sin", .paren '(', .atom "x", .paren ')',
        .big .sum [.atom "3"] [.atom "i", .binary .equals, .atom "1"]] ∧
      (compile .standard [.function "sin", .paren '(', .atom "x", .paren ')',
        .big .sum [.atom "3"] [.atom "i", .binary .equals, .atom "1"]] 0).1.Even := by
  have hlimit : ∀ n, (compile .standard [.atom "i", .binary .equals, .atom "1"] n).1.expr =
      "i=1.0" := by
    have hvariable : (atom "i").kind = .atom "i" ∧ (atom "i").meaning .standard = literal "i" := by
      have hplain : Text.unitalicize "i" = "i" ∧ symbolText "i" = "i" := by decide +kernel
      simp [kind, meaning, hplain]
    have hnumber : (atom "1").kind = .atom "1" ∧ (atom "1").meaning .standard = literal "1" := by
      have hplain : Text.unitalicize "1" = "1" ∧ symbolText "1" = "1" := by decide +kernel
      simp [kind, meaning, hplain]
    intro n
    -- No sum asks for a number, so none is left in what is written.
    simp only [compile, writeAll, hvariable, hnumber]
    simp only [literal, meaning, kind, Progress.start, Progress.advance, Progress.separate,
      Progress.adjustImplicit, Progress.closeImplicit, Progress.apply, Progress.emit,
      Progress.countParen, Progress.add, Progress.push, Progress.modifyFrame, Progress.afterLog,
      Progress.closeSums, Progress.settle, Progress.finish, impliesProduct, Kind.endsArgument,
      Kind.isBinary, Kind.isFunction, Kind.isLeftParen, Kind.isRightParen, Option.any_none,
      Option.any_some, Bool.not_true, Bool.not_false, Bool.and_true, Bool.and_false,
      Bool.false_and, Bool.or_self, Bool.or_false, Bool.false_eq_true, ↓reduceIte]
    decide +kernel
  have hvariable : Balanced (OpenSum.loopVariable "i=1.0") :=
    (by decide : FormulaEditor.ParenFree "i").balanced
  have h : EveryList (Node.Even .standard) [.function "sin", .paren '(', .atom "x", .paren ')',
      .big .sum [.atom "3"] [.atom "i", .binary .equals, .atom "1"]] := by
    refine .intro ⟨rfl, rfl, by decide, ?_⟩ ?_
    · simpa [LoopBalanced, hlimit] using hvariable
    · simp only [List.forall_mem_cons, lists, List.not_mem_nil, false_implies, implies_true,
        true_and, and_true]
      exact ⟨everyList_even_of_leaves ⟨rfl, rfl, by decide, by simp [LoopBalanced]⟩ (by simp [lists]),
        everyList_even_of_leaves ⟨rfl, rfl, by decide, by simp [LoopBalanced]⟩ (by simp [lists])⟩
  exact ⟨h, compile_even ⟨by decide, by decide, by decide, by decide⟩ h 0⟩

/-- Matching parens are not enough: in sin∑ the paren behind the function name is opened in the
expression and closed in the loop. -/
theorem Node.uneven_sum_behind_function : ¬∀ (o : ExprOptions) (nodes : List Node) (counter : Nat),
    o.ParenFree →
      EveryList (fun ns => (ParenMatches.of (ns.map kind)).isBalanced = true ∧
        ∀ n ∈ ns, n.ParenFree) nodes →
      (compile o nodes counter).1.Even := by
  intro h
  have hempty : EveryList (fun ns => (ParenMatches.of (ns.map kind)).isBalanced = true ∧
      ∀ n ∈ ns, n.ParenFree) [] := .intro ⟨rfl, by simp⟩ (by simp)
  have hns : EveryList (fun ns => (ParenMatches.of (ns.map kind)).isBalanced = true ∧
      ∀ n ∈ ns, n.ParenFree) [.function "sin", .big .sum [] []] :=
    .intro ⟨rfl, by decide⟩ (by simpa [lists] using hempty)
  have heven := h .standard _ 0 ⟨by decide, by decide, by decide, by decide⟩ hns
  have hexpr : (compile .standard [.function "sin", .big .sum [] []] 0).1.expr = "sin(sum0" := by
    decide +kernel
  exact absurd (hexpr ▸ heven.expr).1 (by decide)

end FormulaEditor
