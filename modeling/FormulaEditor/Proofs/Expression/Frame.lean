import FormulaEditor.Expression.Progress
import FormulaEditor.Proofs.Balance
import FormulaEditor.Proofs.Text.Characters

/-!
# Parens of frames

What a frame holds leaves a number of parens open. Each change to a frame changes that number by
what it writes, wherever in the frame that goes: a call put around the last operand leaves it as it
is. A frame that leaves none open is finished as a balanced expression.
-/

namespace FormulaEditor

/-- Both texts of the expression are balanced. -/
structure Expression.Even (e : Expression) : Prop where
  body : Balanced e.body
  expr : Balanced e.expr

/-- The frame's statements are balanced, and its text leaves `k` parens open. -/
structure Frame.Holds (frame : Frame) (k : Nat) : Prop where
  body : Balanced frame.body
  text : Leads (String.join frame.tokens.reverse) 0 k

instance {s : String} : Decidable (ParenFree s) :=
  inferInstanceAs (Decidable (∀ c ∈ s.toList, c ≠ '(' ∧ c ≠ ')'))

section Texts

variable {s t : String} {k i j : Nat}

theorem leads_append_iff : Leads (s ++ t) k i ↔ ∃ j, Leads s k j ∧ Leads t j i := by
  rw [Leads, String.toList_append, openAfter_append]
  exact Option.bind_eq_some_iff

theorem Balanced.append (hs : Balanced s) (ht : Balanced t) : Balanced (s ++ t) :=
  balanced_iff.mpr ((hs.leads 0).append (ht.leads 0))

theorem ParenFree.append (hs : ParenFree s) (ht : ParenFree t) : ParenFree (s ++ t) := by
  simp only [ParenFree, String.toList_append, List.mem_append]
  exact fun c hc => hc.elim (hs c) (ht c)

/-- A balanced text between parens, a call for instance. -/
theorem Balanced.call (hs : ParenFree s) (ht : Balanced t) : Balanced (s ++ "(" ++ t ++ ")") := by
  have hopen : Leads "(" 0 1 := rfl
  have hclose : Leads ")" 1 0 := rfl
  exact balanced_iff.mpr ((((hs.leads 0).append hopen).append (ht.leads 1)).append hclose)

/-- Closing parens close as many as there are of them. -/
theorem leads_repeated (n k : Nat) : Leads (repeated n ")") (k + n) k := by
  induction n with
  | zero => exact rfl
  | succ n ih =>
    have hclose : Leads ")" (k + n + 1) (k + n) := rfl
    have hjoin : repeated (n + 1) ")" = ")" ++ repeated n ")" := by
      simp [repeated, List.replicate_succ, String.join_cons]
    rw [hjoin]
    exact hclose.append ih

theorem filter_promoteFrom (state : Text.NumeralState) (cs : List Char) :
    (Text.promoteFrom state cs).filter (fun c => c == '(' || c == ')') =
      cs.filter fun c => c == '(' || c == ')' := by
  fun_induction Text.promoteFrom state cs with
  | case1 | case2 => rfl
  | case3 state c cs hc ih => simp only [List.filter_cons, ih]
  | case4 state c cs hc hp ih =>
    rw [List.filter_cons_of_neg (by decide), List.filter_cons_of_neg (by decide)]
    simp only [List.filter_cons, ih]
  | case5 state c cs hc hp ih => simp only [List.filter_cons, ih]

/-- Fractional parts have no parens. -/
theorem leads_promoteIntegers : Leads (Text.promoteIntegers s) k j ↔ Leads s k j := by
  rw [Leads, Leads, Text.promoteIntegers, String.toList_ofList, ← openAfter_filter,
    filter_promoteFrom, openAfter_filter]

theorem Expression.Even.promoteIntegers {e : Expression} (h : e.Even) : e.promoteIntegers.Even where
  body := balanced_iff.mpr (leads_promoteIntegers.mpr (balanced_iff.mp h.body))
  expr := balanced_iff.mpr (leads_promoteIntegers.mpr (balanced_iff.mp h.expr))

theorem Expression.even_pure (h : ParenFree s) : (Expression.pure s).Even :=
  ⟨(by decide : ParenFree "").balanced, h.balanced⟩

end Texts

namespace Frame

variable {frame : Frame} {token before after : String} {k j : Nat} {e : Expression}

theorem holds_empty : Frame.empty.Holds 0 :=
  ⟨(by decide : ParenFree "").balanced, rfl⟩

namespace Holds

theorem push (h : frame.Holds k) (ht : Leads token k j) : (frame.push token).Holds j := by
  unfold Frame.push
  split
  · rename_i hempty
    obtain rfl : token = "" := by simpa using hempty
    cases ht
    exact h
  · refine ⟨h.body, ?_⟩
    simp only [List.reverse_cons, String.join_append, String.join_cons]
    exact h.text.append (by simpa using ht)

theorem pushBody {body : String} (h : frame.Holds k) (hb : Balanced body) :
    (frame.pushBody body).Holds k :=
  ⟨h.body.append hb, h.text⟩

theorem add (h : frame.Holds k) (hb : Balanced e.body) (he : Leads e.expr k j) :
    (frame.add e).Holds j :=
  (h.pushBody hb).push he

/-- A name taken away leaves the parens as they are. -/
theorem pop (h : frame.Holds k) (ht : ∀ token ∈ frame.tokens.head?, ParenFree token) :
    frame.pop.Holds k := by
  refine ⟨h.body, ?_⟩
  have htext := h.text
  unfold Frame.pop
  cases hf : frame.tokens with
  | nil => rwa [hf] at htext
  | cons token tokens =>
    rw [hf, List.reverse_cons, String.join_append] at htext
    obtain ⟨j, hj, htoken⟩ := leads_append_iff.mp htext
    have hfree : Leads token j j := (ht token (by rw [hf]; rfl)).leads j
    obtain rfl : j = k := by
      have : Leads token j k := by simpa [String.join_cons] using htoken
      exact Option.some.inj (hfree.symm.trans this)
    exact hj

/-- A call around the last operand, whatever that is. -/
theorem wrapOperand (h : frame.Holds k) (hb : ∀ k, Leads before k (k + 1))
    (ha : ∀ k, Leads after (k + 1) k) : (frame.wrapOperand before after).Holds k := by
  refine ⟨h.body, ?_⟩
  have htext := h.text
  unfold Frame.wrapOperand
  simp only
  generalize operandLength 0 frame.tokens = size
  rw [← List.take_append_drop size frame.tokens, List.reverse_append, String.join_append] at htext
  obtain ⟨j, hrest, hoperand⟩ := leads_append_iff.mp htext
  simp only [List.reverse_cons, List.reverse_append, String.join_append, String.join_cons,
    String.join_nil, String.append_empty, List.append_assoc]
  exact hrest.append ((hb j).append ((hoperand.shift 1).append (ha k)))

theorem finish (h : frame.Holds 0) : frame.finish.Even :=
  ⟨h.body, balanced_iff.mpr h.text⟩

end Holds

end Frame

end FormulaEditor
