import FormulaEditor.Proofs.Expression.Promotion

/-!
# Texts that stay apart

Two texts are told apart by how they are written if no text around them makes them the same. An
expression in the making that has one of them, in one place, in place of the other stays apart from
what it would have been: nothing that is written later takes the place away or makes up for it.
-/

namespace FormulaEditor

variable {o : ExprOptions} {s t before behind : String}

/-! ## Texts -/

namespace Text

/-- Blanks cut off at the ends leave no more of a text than of what it begins. -/
theorem length_trim_le {cs ds : List Char} (h : cs <+: ds) :
    (trim cs).length ≤ (trim ds).length := by
  have hend : ∀ cs ds : List Char, (trimEnd cs).length ≤ (trimEnd (cs ++ ds)).length := by
    intro cs ds
    simp only [trimEnd, List.length_reverse, List.reverse_append, List.dropWhile_append]
    split
    · exact Nat.le_refl _
    · rw [List.length_append]
      have := (List.dropWhile_sublist (p := Unicode.isWhitespace) (l := cs.reverse)).length_le
      omega
  obtain ⟨rest, rfl⟩ := h
  rw [trim, trim, List.dropWhile_append]
  split
  · rename_i hblank
    rw [List.isEmpty_iff.mp hblank]
    exact Nat.zero_le _
  · exact hend _ rest

end Text

namespace OpenSum

theorem length_loopVariable_le (h : s.toList <+: t.toList) :
    (loopVariable s).toList.length ≤ (loopVariable t).toList.length := by
  have hprefix : s.toList.takeWhile (· != '=') <+: t.toList.takeWhile (· != '=') := by
    obtain ⟨rest, hrest⟩ := h
    rw [← hrest, List.takeWhile_append]
    split
    · rw [List.takeWhile_eq_self_iff.mpr]
      · exact List.prefix_append _ _
      · exact List.takeWhile_eq_self_iff.mp (List.Sublist.eq_of_length (List.takeWhile_sublist _) ‹_›)
    · exact List.prefix_refl _
  simp only [loopVariable, String.toList_ofList]
  exact Text.length_trim_le hprefix

/-- The loop variable is no longer than the lower limit it is read from, so a header has only one. -/
theorem eq_of_header (header first second : String)
    (h : header ++ s ++ "; " ++ loopVariable s ++ first ++ loopVariable s ++ second =
      header ++ t ++ "; " ++ loopVariable t ++ first ++ loopVariable t ++ second) : s = t := by
  have hshorter : ∀ {s t : String}, s.toList.length ≤ t.toList.length →
      header ++ s ++ "; " ++ loopVariable s ++ first ++ loopVariable s ++ second =
        header ++ t ++ "; " ++ loopVariable t ++ first ++ loopVariable t ++ second → s = t := by
    intro s t hle h
    replace h := congrArg String.toList h
    simp only [String.toList_append, List.append_assoc, List.append_cancel_left_eq] at h
    have hs : s.toList <+: t.toList :=
      List.prefix_of_prefix_length_le ⟨_, h⟩ (List.prefix_append _ _) hle
    have hvariable := length_loopVariable_le hs
    have hlength := congrArg List.length h
    simp only [List.length_append] at hlength
    exact String.ext (hs.eq_of_length (by omega))
  rcases Nat.le_total s.toList.length t.toList.length with hle | hle
  · exact hshorter hle h
  · exact (hshorter hle h.symm).symm

end OpenSum

namespace ExprOptions

/-- The text with its integers as the options want them. -/
def spell (o : ExprOptions) (s : String) : String :=
  if o.promotesIntegers then Text.promoteIntegers s else s

theorem spell_separator (h : Text.isSeparator s = true) (before behind : String) :
    o.spell (before ++ s ++ behind) = o.spell before ++ s ++ o.spell behind := by
  unfold spell
  split
  · exact Text.promoteIntegers_separator h before behind
  · rfl

theorem closingExcess_spell : Frame.closingExcess (o.spell s) = Frame.closingExcess s := by
  unfold spell
  split
  · exact Frame.closingExcess_promoteIntegers
  · rfl

/-- Whatever stands around the texts, the options want them written differently. -/
def Distinguishes (o : ExprOptions) (s t : String) : Prop :=
  ∀ before behind, o.spell (before ++ s ++ behind) ≠ o.spell (before ++ t ++ behind)

namespace Distinguishes

theorem spell_ne (h : o.Distinguishes s t) : o.spell s ≠ o.spell t := by
  simpa using h "" ""

theorem around (h : o.Distinguishes s t) (before behind : String) :
    o.Distinguishes (before ++ s ++ behind) (before ++ t ++ behind) := by
  intro first second
  simpa only [String.append_assoc] using h (first ++ before) (behind ++ second)

theorem of_closingExcess (h : Frame.closingExcess s ≠ Frame.closingExcess t) :
    o.Distinguishes s t := by
  intro first second heq
  have hexcess := congrArg Frame.closingExcess heq
  simp only [closingExcess_spell, Frame.closingExcess_append] at hexcess
  omega

/-- Between signs, texts are told apart if they are different themselves. -/
theorem between (hbefore : Text.isSeparator before = true) (hbehind : Text.isSeparator behind = true)
    (h : o.spell s ≠ o.spell t) :
    o.Distinguishes (before ++ s ++ behind) (before ++ t ++ behind) := by
  have hsplit : ∀ first second s, o.spell (first ++ (before ++ s ++ behind) ++ second) =
      o.spell first ++ before ++ o.spell s ++ behind ++ o.spell second := by
    intro first second s
    simp only [← String.append_assoc, spell_separator hbefore, spell_separator hbehind]
  intro first second heq
  rw [hsplit, hsplit] at heq
  simp only [String.append_assoc, String.append_right_inj] at heq
  simp only [← String.append_assoc, String.append_left_inj] at heq
  exact h heq

end Distinguishes

end ExprOptions

theorem Expression.written_eq (e : Expression) : e.written o = ⟨o.spell e.body, o.spell e.expr⟩ := by
  unfold written ExprOptions.spell
  split <;> rfl

/-- Loops are told apart by their lower limits. -/
theorem OpenSum.distinguishes_loopText {op : BigOp} {name : String}
    {init init' last argument : Expression} (hbody : init.body = init'.body)
    (h : o.spell init.expr ≠ o.spell init'.expr) :
    o.Distinguishes (loopText op name init last argument).body
      (loopText op name init' last argument).body := by
  have hspell : ∀ (first second : String) (init : Expression),
      o.spell (first ++ (loopText op name init last argument).body ++ second) =
        o.spell first ++ (loopText op (o.spell name) (init.written o) (last.written o)
          (argument.written o)).body ++ o.spell second := by
    intro first second init
    unfold ExprOptions.spell Expression.written
    split
    · exact promoteIntegers_loopText first second
    · rfl
  intro first second heq
  rw [hspell, hspell] at heq
  simp only [body_loopText, Expression.written_eq, hbody] at heq
  refine h (eq_of_header (o.spell first ++ "\n" ++ o.spell init'.body ++ "\n" ++
    o.spell last.body ++ "\nfloat " ++ o.spell name ++ " = " ++ (startAndStep op).1 ++
    ";\nfor (float ") (" <= " ++ o.spell last.expr ++ "; ") ("++) \x7b\n    " ++
    o.spell argument.body ++ "\n    " ++ o.spell name ++ " " ++ (startAndStep op).2 ++ " " ++
    o.spell argument.expr ++ ";\n\x7d" ++ o.spell second) ?_)
  simpa only [String.append_assoc] using heq

theorem not_parenFree_of_mem (h : '(' ∈ s.toList) : ¬ParenFree s := fun hfree =>
  (hfree '(' h).1 rfl

/-! ## Expressions -/

/-- The expressions differ in one place, in the statements or in the text behind them. -/
inductive Expression.Apart (o : ExprOptions) : Expression → Expression → Prop
  | body {s t : String} (expr : String) (h : o.Distinguishes s t) : Apart o ⟨s, expr⟩ ⟨t, expr⟩
  | expr (body : String) {s t : String} (h : o.Distinguishes s t) : Apart o ⟨body, s⟩ ⟨body, t⟩

namespace Expression.Apart

variable {e f : Expression}

theorem around (h : e.Apart o f) (first second before behind : String) :
    Apart o ⟨first ++ e.body ++ second, before ++ e.expr ++ behind⟩
      ⟨first ++ f.body ++ second, before ++ f.expr ++ behind⟩ := by
  cases h with
  | body expr h => exact .body _ (h.around first second)
  | expr body h => exact .expr _ (h.around before behind)

theorem written_ne (h : e.Apart o f) : e.written o ≠ f.written o := by
  intro heq
  rw [written_eq, written_eq, Expression.mk.injEq] at heq
  cases h with
  | body expr h => exact h.spell_ne heq.1
  | expr body h => exact h.spell_ne heq.2

end Expression.Apart

/-- The expressions differ in one place, whichever number the next accumulator gets. -/
def Compilation.Apart (o : ExprOptions) (c d : Compilation) : Prop :=
  ∀ n, (c n).1.Apart o (d n).1 ∧ (c n).2 = (d n).2

namespace OpenSum

variable {op : BigOp} {name : String} {init init' last last' argument argument' : Expression}

theorem distinguishes_of_init (h : init.Apart o init') : o.Distinguishes
    (loopText op name init last argument).body (loopText op name init' last argument).body := by
  cases h with
  | @body s t expr h =>
    have := h.around "\n" ("\n" ++ last.body ++ "\nfloat " ++ name ++ " = " ++
      (startAndStep op).1 ++ ";\nfor (float " ++ expr ++ "; " ++ loopVariable expr ++ " <= " ++
      last.expr ++ "; " ++ loopVariable expr ++ "++) \x7b\n    " ++ argument.body ++ "\n    " ++
      name ++ " " ++ (startAndStep op).2 ++ " " ++ argument.expr ++ ";\n\x7d")
    simpa only [body_loopText, String.append_assoc] using this
  | expr body h => exact distinguishes_loopText rfl h.spell_ne

theorem distinguishes_of_last (h : last.Apart o last') : o.Distinguishes
    (loopText op name init last argument).body (loopText op name init last' argument).body := by
  cases h with
  | @body s t expr h =>
    have := h.around ("\n" ++ init.body ++ "\n") ("\nfloat " ++ name ++ " = " ++
      (startAndStep op).1 ++ ";\nfor (float " ++ init.expr ++ "; " ++ loopVariable init.expr ++
      " <= " ++ expr ++ "; " ++ loopVariable init.expr ++ "++) \x7b\n    " ++ argument.body ++
      "\n    " ++ name ++ " " ++ (startAndStep op).2 ++ " " ++ argument.expr ++ ";\n\x7d")
    simpa only [body_loopText, String.append_assoc] using this
  | @expr body s t h =>
    have := h.around ("\n" ++ init.body ++ "\n" ++ body ++ "\nfloat " ++ name ++ " = " ++
      (startAndStep op).1 ++ ";\nfor (float " ++ init.expr ++ "; " ++ loopVariable init.expr ++
      " <= ") ("; " ++ loopVariable init.expr ++ "++) \x7b\n    " ++ argument.body ++
      "\n    " ++ name ++ " " ++ (startAndStep op).2 ++ " " ++ argument.expr ++ ";\n\x7d")
    simpa only [body_loopText, String.append_assoc] using this

theorem distinguishes_of_argument (h : argument.Apart o argument') : o.Distinguishes
    (loopText op name init last argument).body (loopText op name init last argument').body := by
  cases h with
  | @body s t expr h =>
    have := h.around ("\n" ++ init.body ++ "\n" ++ last.body ++ "\nfloat " ++ name ++ " = " ++
      (startAndStep op).1 ++ ";\nfor (float " ++ init.expr ++ "; " ++ loopVariable init.expr ++
      " <= " ++ last.expr ++ "; " ++ loopVariable init.expr ++ "++) \x7b\n    ")
      ("\n    " ++ name ++ " " ++ (startAndStep op).2 ++ " " ++ expr ++ ";\n\x7d")
    simpa only [body_loopText, String.append_assoc] using this
  | @expr body s t h =>
    have := h.around ("\n" ++ init.body ++ "\n" ++ last.body ++ "\nfloat " ++ name ++ " = " ++
      (startAndStep op).1 ++ ";\nfor (float " ++ init.expr ++ "; " ++ loopVariable init.expr ++
      " <= " ++ last.expr ++ "; " ++ loopVariable init.expr ++ "++) \x7b\n    " ++ body ++
      "\n    " ++ name ++ " " ++ (startAndStep op).2 ++ " ") ";\n\x7d"
    simpa only [body_loopText, String.append_assoc] using this

end OpenSum

/-! ## Frames -/

/-- The frames differ in one place: in the statements, in a token that is no name and no sign, or in
how many parens are open. -/
inductive Frame.Apart (o : ExprOptions) : Frame → Frame → Prop
  | body {s t : String} (tokens : List String) (h : o.Distinguishes s t) :
    Apart o ⟨s, tokens⟩ ⟨t, tokens⟩
  | token (body : String) {s t : String} (later earlier : List String) (h : o.Distinguishes s t)
    (hs : ¬ParenFree s) (ht : ¬ParenFree t)
    (hexcess : Frame.closingExcess s = Frame.closingExcess t) :
    Apart o ⟨body, later ++ s :: earlier⟩ ⟨body, later ++ t :: earlier⟩
  | excess (body : String) {tokens tokens' : List String}
    (h : Frame.excessOf tokens ≠ Frame.excessOf tokens') : Apart o ⟨body, tokens⟩ ⟨body, tokens'⟩

namespace Frame

variable {f g : Frame} {e e' : Expression} {later earlier : List String} {tokens : List String}

theorem closingExcess_join (tokens : List String) :
    closingExcess (String.join tokens.reverse) = excessOf tokens := by
  induction tokens with
  | nil => rfl
  | cons token tokens ih =>
    rw [List.reverse_cons, String.join_append, closingExcess_append, ih, excessOf, String.join_cons,
      String.join_nil, String.append_empty, Int.add_comm]

theorem isBoundary_of_not_parenFree (h : ¬ParenFree s) : isBoundary s = false := by
  refine Bool.eq_false_iff.mpr fun hsign => h ?_
  simp only [isBoundary, Bool.or_eq_true, beq_iff_eq] at hsign
  obtain ((rfl | rfl) | rfl) | rfl := hsign <;> simp [ParenFree]

theorem operandLength_apart (hs : ¬ParenFree s) (ht : ¬ParenFree t)
    (h : closingExcess s = closingExcess t) (depth : Int) :
    operandLength depth (later ++ s :: earlier) = operandLength depth (later ++ t :: earlier) := by
  induction later generalizing depth with
  | nil =>
    simp only [List.nil_append, operandLength, h, isBoundary_of_not_parenFree hs,
      isBoundary_of_not_parenFree ht]
  | cons token later ih => simp only [List.cons_append, operandLength, ih]

theorem push_of_not_parenFree (f : Frame) (h : ¬ParenFree s) :
    f.push s = ⟨f.body, s :: f.tokens⟩ := by
  refine if_neg fun hempty => h ?_
  obtain rfl := String.isEmpty_iff.mp hempty
  simp [ParenFree]

/-- Texts that are told apart go into the same frame. -/
theorem apart_push (f : Frame) (h : o.Distinguishes s t) (hs : ¬ParenFree s) (ht : ¬ParenFree t) :
    (f.push s).Apart o (f.push t) := by
  rw [push_of_not_parenFree f hs, push_of_not_parenFree f ht]
  by_cases hexcess : closingExcess s = closingExcess t
  · exact .token f.body [] f.tokens h hs ht hexcess
  · refine .excess f.body ?_
    simp only [excessOf]
    omega

/-- Statements that are told apart go into the same frame. -/
theorem apart_pushBody (f : Frame) (h : o.Distinguishes s t) :
    (f.pushBody s).Apart o (f.pushBody t) := by
  have hbody := h.around f.body ""
  simp only [String.append_empty] at hbody
  exact .body f.tokens hbody

namespace Apart

theorem push (h : f.Apart o g) (token : String) : (f.push token).Apart o (g.push token) := by
  unfold Frame.push
  split
  · exact h
  · cases h with
    | body tokens h => exact .body _ h
    | token body later earlier h hs ht hexcess =>
      exact .token body (token :: later) earlier h hs ht hexcess
    | excess body h =>
      refine .excess body ?_
      simp only [excessOf]
      omega

theorem pushBody (h : f.Apart o g) (body : String) :
    (f.pushBody body).Apart o (g.pushBody body) := by
  cases h with
  | body tokens h => exact .body _ (by simpa using h.around "" body)
  | token _ later earlier h hs ht hexcess => exact .token _ later earlier h hs ht hexcess
  | excess _ h => exact .excess _ h

/-- A name is taken away from both, and the place is not in it. -/
theorem pop (h : f.Apart o g) (hf : ∀ token ∈ f.tokens.head?, ParenFree token)
    (hg : ∀ token ∈ g.tokens.head?, ParenFree token) : f.pop.Apart o g.pop := by
  cases h with
  | body tokens h => exact .body _ h
  | token body later earlier h hs ht hexcess =>
    cases later with
    | nil => exact absurd (hf _ rfl) hs
    | cons token later => exact .token body later earlier h hs ht hexcess
  | @excess body tokens tokens' h =>
    have hpop : (Frame.pop ⟨body, tokens⟩).excess = Frame.excess ⟨body, tokens⟩ :=
      excess_pop fun token ht => closingExcess_of_parenFree (hf token ht)
    have hpop' : (Frame.pop ⟨body, tokens'⟩).excess = Frame.excess ⟨body, tokens'⟩ :=
      excess_pop fun token ht => closingExcess_of_parenFree (hg token ht)
    exact .excess body fun heq => h (hpop.symm.trans (heq.trans hpop'))

theorem wrapOperand (h : f.Apart o g) (before after : String) :
    (f.wrapOperand before after).Apart o (g.wrapOperand before after) := by
  cases h with
  | body tokens h => exact .body _ h
  | @token body s t later earlier h hs ht hexcess =>
    simp only [Frame.wrapOperand, operandLength_apart hs ht hexcess]
    generalize operandLength 0 (later ++ t :: earlier) = size
    -- The operand begins on either side of the place.
    rcases Nat.lt_or_ge later.length size with hsize | hsize
    · have htake : ∀ token, (later ++ token :: earlier).take size =
          later ++ token :: earlier.take (size - later.length - 1) := by
        intro token
        obtain ⟨k, rfl⟩ : ∃ k, size = later.length + (k + 1) := ⟨size - later.length - 1, by omega⟩
        simp [List.take_append, List.take_of_length_le]
      have hdrop : ∀ token, (later ++ token :: earlier).drop size =
          earlier.drop (size - later.length - 1) := by
        intro token
        obtain ⟨k, rfl⟩ : ∃ k, size = later.length + (k + 1) := ⟨size - later.length - 1, by omega⟩
        simp [List.drop_append]
      simp only [htake, hdrop]
      simpa using Frame.Apart.token body (after :: later)
        (earlier.take (size - later.length - 1) ++ before :: earlier.drop (size - later.length - 1))
        h hs ht hexcess
    · have htake : ∀ token, (later ++ token :: earlier).take size = later.take size := fun token =>
        List.take_append_of_le_length hsize
      have hdrop : ∀ token, (later ++ token :: earlier).drop size =
          later.drop size ++ token :: earlier := fun token => List.drop_append_of_le_length hsize
      simp only [htake, hdrop]
      simpa using Frame.Apart.token body (after :: later.take size ++ before :: later.drop size)
        earlier h hs ht hexcess
  | @excess body tokens tokens' h =>
    refine .excess body fun heq => h ?_
    have hsame : (Frame.wrapOperand ⟨body, tokens⟩ before after).excess =
      (Frame.wrapOperand ⟨body, tokens'⟩ before after).excess := heq
    rw [excess_wrapOperand, excess_wrapOperand] at hsame
    have htokens : Frame.excess ⟨body, tokens⟩ = Frame.excess ⟨body, tokens'⟩ := by omega
    exact htokens

theorem finish (h : f.Apart o g) : f.finish.Apart o g.finish := by
  cases h with
  | body tokens h => exact .body _ h
  | @token body s t later earlier h _ _ _ =>
    have hjoin : ∀ token, String.join (later ++ token :: earlier).reverse =
        String.join earlier.reverse ++ token ++ String.join later.reverse := by
      intro token
      simp [String.join_append, String.join_cons, String.append_assoc]
    simp only [Frame.finish, hjoin]
    exact .expr _ (h.around _ _)
  | excess body h =>
    refine .expr body (.of_closingExcess ?_)
    rwa [closingExcess_join, closingExcess_join]

end Apart

/-- Expressions that differ go into the same frame. -/
theorem apart_add (f : Frame) (h : e.Apart o e') (hs : ¬ParenFree e.expr)
    (ht : ¬ParenFree e'.expr) : (f.add e).Apart o (f.add e') := by
  cases h with
  | body expr h => exact (apart_pushBody f h).push expr
  | expr body h => exact apart_push _ h hs ht

/-- Calls with arguments that are told apart go around the same operand. -/
theorem apart_wrapOperand (f : Frame) (h : e.Apart o e') (hs : ¬ParenFree e.expr)
    (ht : ¬ParenFree e'.expr) (before : String) :
    ((f.wrapOperand before e.expr).pushBody e.body).Apart o
      ((f.wrapOperand before e'.expr).pushBody e'.body) := by
  cases h with
  | body expr h => exact apart_pushBody _ h
  | @expr body s t h =>
    by_cases hexcess : closingExcess s = closingExcess t
    · exact .token (f.body ++ body) [] _ h hs ht hexcess
    · refine .excess _ ?_
      simp only [wrapOperand, excessOf, List.cons_append]
      omega

end Frame

end FormulaEditor
