import FormulaEditor.Proofs.Decimal.Plain
import FormulaEditor.Proofs.Document.Figures
import FormulaEditor.Proofs.Expression.Writing

/-!
# Writing an assignment

As long as nothing is open, symbols and operators are written as they stand. The symbol, equals sign
and figures of an assigned numeral need no product sign between them, so together they are written
as the name, the sign and the numeral.
-/

namespace FormulaEditor

/-- The nodes of a numeral: a minus if it has one, and a symbol for each character behind it. -/
def numeralNodes : List Char → List Node
  | '-' :: cs => .binary .minus :: cs.map .ofChar
  | cs => cs.map .ofChar

/-- Without a minus there are symbols only. -/
theorem Decimal.IsUnsigned.numeralNodes_eq {cs : List Char} (h : IsUnsigned cs) :
    numeralNodes cs = cs.map .ofChar := by
  obtain ⟨c, rest, rfl, hc⟩ := h.exists_cons
  unfold numeralNodes
  split
  · rename_i heq
    cases heq
    simp at hc
  · rfl

namespace Node

variable {o : ExprOptions} {c : Char}

/-- Figures stand for themselves. -/
theorem meaning_ofChar (hc : c.isDigit = true ∨ c = '.') :
    (Node.ofChar c).meaning o = literal (String.singleton c) := by
  have hbang : (Text.unitalicize (String.singleton c) == "!") = false :=
    IsFigure.of_char (p := fun c => (Text.unitalicize (String.singleton c) == "!") = false)
      (by decide +kernel) (by decide +kernel) hc
  have htext : symbolText (String.singleton c) = String.singleton c :=
    IsFigure.of_char (p := fun c => symbolText (String.singleton c) = String.singleton c)
      (by decide +kernel) (by decide +kernel) hc
  rw [ofChar, meaning, hbang, htext]
  rfl

/-- Figures are parts of a number, so nothing is multiplied by them. -/
theorem impliesProduct_ofChar (hc : c.isDigit = true ∨ c = '.') (previous : Kind) :
    impliesProduct previous (Node.ofChar c).kind = false := by
  have hpart : (Node.ofChar c).kind.isNumberPart = true :=
    IsFigure.of_char (p := fun c => (Node.ofChar c).kind.isNumberPart = true) (by decide +kernel)
      (by decide +kernel) hc
  simp [impliesProduct, hpart]

theorem impliesProduct_binary (previous : Kind) (op : BinaryOp) :
    impliesProduct previous (Node.binary op).kind = false := by
  simp [impliesProduct, Node.kind, Kind.isBinary]

end Node

namespace Progress

variable {o : ExprOptions} {p : Progress} {text token : String} {kind : Kind}

/-- A text is written so far, and nothing is open behind it. -/
structure Flat (text : String) (p : Progress) : Prop where
  sums : p.sums = []
  implicit : p.implicit = 0
  root : p.root.finish = .pure text
  previous : ∀ kind ∈ p.previous, kind.isFunction = false

theorem flat_start (counter : Nat) : (start counter).Flat "" :=
  ⟨rfl, rfl, rfl, by simp [start]⟩

theorem flat_push {frame : Frame} (h : frame.finish = .pure text) :
    (frame.push token).finish = .pure (text ++ token) := by
  obtain ⟨hbody, hexpr⟩ : frame.body = "" ∧ String.join frame.tokens.reverse = text := by
    simpa [Frame.finish, Expression.pure] using h
  by_cases hempty : token = ""
  · simp [Frame.push, hempty, h]
  · simp [Frame.push, hempty, Frame.finish, Expression.pure, hbody, hexpr, String.join_append]

namespace Flat

/-- There is no paren to close, and none to open. -/
theorem adjustImplicit_eq (h : p.Flat text) : p.adjustImplicit kind = p := by
  have hnot : p.previous.any Kind.isFunction = false := by
    rw [Option.any_eq_false]
    exact fun previous hp => by simp [h.previous previous hp]
  rw [adjustImplicit, hnot]
  obtain ⟨previous, root, sums, implicit, counter⟩ := p
  obtain ⟨rfl, rfl, -, -⟩ := h
  simp [closeImplicit, push, modifyFrame, repeated, Frame.push]

/-- There is no sum to close, so the text goes to the root. -/
theorem emit_eq (h : p.Flat text) : p.emit o kind (fun counter => (.pure token, counter)) =
    { p with root := p.root.push token } := by
  obtain ⟨previous, root, sums, implicit, counter⟩ := p
  obtain ⟨rfl, rfl, -, -⟩ := h
  have hsettled : beforeText o ⟨previous, root, [], 0, counter⟩ kind =
      ⟨previous, root, [], 0, counter⟩ := by
    simp [beforeText, closeSums, settle]
  rw [Progress.emit_eq, hsettled]
  simp [countParen, add, modifyFrame, Frame.add, Frame.pushBody, Expression.pure]

/-- Text of a node's own goes to the root, if no product sign goes before it. -/
theorem advance_eq (h : p.Flat text) (o : ExprOptions) (token : String)
    (hproduct : ∀ previous ∈ p.previous, impliesProduct previous kind = false) :
    p.advance o kind (Node.literal token) =
      { p with root := p.root.push token, previous := some kind } := by
  have hseparate : p.separate kind = p := by
    rw [separate, if_neg]
    simpa [Option.any_eq_true] using hproduct
  rw [Progress.advance, hseparate, h.adjustImplicit_eq]
  · rw [Node.literal, apply, h.emit_eq]
  · intro exponent base hscripts
    cases hscripts

/-- Text of a node's own is written behind what is there, if no product sign goes between. -/
theorem advance (h : p.Flat text) (o : ExprOptions) (token : String)
    (hkind : kind.isFunction = false)
    (hproduct : ∀ previous ∈ p.previous, impliesProduct previous kind = false) :
    (p.advance o kind (Node.literal token)).Flat (text ++ token) ∧
      (p.advance o kind (Node.literal token)).previous = some kind := by
  rw [h.advance_eq o token hproduct]
  exact ⟨⟨h.sums, h.implicit, flat_push h.root, by simpa using hkind⟩, rfl⟩

/-- At the end, the text is the expression. -/
theorem finish (h : p.Flat text) : (p.finish o).1 = (Expression.pure text).written o := by
  obtain ⟨previous, root, sums, implicit, counter⟩ := p
  obtain ⟨rfl, rfl, hroot, -⟩ := h
  have hclose : close o ⟨previous, root, [], 0, counter⟩ = ⟨previous, root, [], 0, counter⟩ := by
    simp [close, push, modifyFrame, repeated, Frame.push, closeSums, settle]
  rw [finish_eq, hclose, hroot]

/-- Symbols that are digits or points are written one after the other. -/
theorem writeAll_ofChar {cs : List Char} (h : p.Flat text)
    (hcs : ∀ c ∈ cs, c.isDigit = true ∨ c = '.') :
    (Node.writeAll o (cs.map .ofChar) p).Flat (text ++ String.ofList cs) := by
  induction cs generalizing p text with
  | nil =>
    rw [String.ofList_nil, String.append_empty]
    exact h
  | cons c cs ih =>
    obtain ⟨hc, hcs⟩ := List.forall_mem_cons.mp hcs
    have hkind : (Node.ofChar c).kind.isFunction = false := rfl
    have hstep := h.advance o (String.singleton c) hkind fun previous _ =>
      Node.impliesProduct_ofChar hc previous
    rw [← Node.meaning_ofChar hc] at hstep
    have htext : text ++ String.ofList (c :: cs) =
        text ++ String.singleton c ++ String.ofList cs := by
      apply String.toList_injective
      simp
    rw [htext]
    exact ih hstep.1 hcs

end Flat

end Progress

namespace Node

variable {o : ExprOptions} {text : String} {cs : List Char}

/-- The nodes of a plain numeral are written as the numeral. -/
theorem writeAll_numeralNodes {p : Progress} (h : p.Flat text) (hcs : Decimal.IsPlain cs) :
    (writeAll o (numeralNodes cs) p).Flat (text ++ String.ofList cs) := by
  cases hcs with
  | positive hcs =>
    rw [hcs.numeralNodes_eq]
    exact h.writeAll_ofChar hcs.isDigit_or_point
  | @negative cs hcs =>
    have hkind : (binary .minus).kind.isFunction = false := rfl
    have hstep := h.advance o "-" hkind fun previous _ => impliesProduct_binary previous .minus
    have htext : text ++ String.ofList ('-' :: cs) = text ++ "-" ++ String.ofList cs := by
      apply String.toList_injective
      simp
    rw [htext]
    exact hstep.1.writeAll_ofChar hcs.isDigit_or_point

/-- A numeral assigned to a symbol is written as name, sign and numeral. -/
theorem compile_assignment (htext : Text.unitalicize text ≠ "!") (hcs : Decimal.IsPlain cs)
    (counter : Nat) :
    (compile o (.atom text :: .binary .equals :: numeralNodes cs) counter).1 =
      (Expression.pure (symbolText text ++ "=" ++ String.ofList cs)).written o := by
  have hmeaning : (atom text).meaning o = literal (symbolText text) := by
    rw [meaning, if_neg (by simpa using htext)]
  have hname := (Progress.flat_start counter).advance o (symbolText text)
    (rfl : (atom text).kind.isFunction = false) (by simp [Progress.start])
  have hequals := hname.1.advance o "=" rfl fun previous _ => impliesProduct_binary previous .equals
  rw [← hmeaning, String.empty_append] at hequals
  exact (writeAll_numeralNodes hequals.1 hcs).finish

/-! ## Names -/

/-- The name of a Greek letter has no digits in it. -/
theorem promoteIntegers_greekIdentifier {c : Char} {name : String}
    (h : Symbol.greekIdentifier? c = some name) : Text.promoteIntegers name = name := by
  obtain ⟨entry, hentry, rfl⟩ := Option.map_eq_some_iff.mp h
  have hnames : ∀ entry ∈ Symbol.greekLetters.reverse,
      Text.promoteIntegers entry.1 = entry.1 := by decide +kernel
  exact hnames entry (List.mem_of_find?_eq_some hentry)

/-- A symbol whose name does not begin with a digit goes by that name among floats, too. -/
theorem promoteIntegers_symbolText {c : Char}
    (hfirst : ∀ d ∈ (symbolText (String.singleton c)).toList.head?, d.isDigit = false) :
    Text.promoteIntegers (symbolText (String.singleton c)) = symbolText (String.singleton c) := by
  have htext : symbolText (String.singleton c) =
      (Symbol.greekIdentifier? (Text.plain c)).getD (String.singleton (Text.plain c)) := by
    simp only [symbolText, Text.unitalicize, String.toList_singleton, List.map_singleton,
      String.toList_ofList]
    rfl
  rw [htext] at hfirst ⊢
  cases hgreek : Symbol.greekIdentifier? (Text.plain c) with
  | some name => exact promoteIntegers_greekIdentifier hgreek
  | none =>
    have hdigit : (Text.plain c).isDigit = false := by simpa [hgreek] using hfirst
    apply String.toList_injective
    simp [Text.promoteIntegers, Text.promoteFrom, hdigit]

end Node

end FormulaEditor
