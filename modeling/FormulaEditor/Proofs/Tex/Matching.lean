import FormulaEditor.Proofs.Tex.Offsets

/-!
# What an error depends on

Lexemes that match in their tokens lead the readers to the same end: both texts are read as the same
notation, or both are refused for the same fault. Then the errors point at lexemes that match, which
hold what the fault names, or both point at the ends of the texts.
-/

namespace FormulaEditor.Tex

variable {S : Lexeme → Lexeme → Prop} {finish finish' : Nat} {α β : Type}
  {lexemes lexemes' rest rest' : List Lexeme}

/-- The first of the lexemes have one token, and the lexemes after them match again. -/
inductive Heads (S : Lexeme → Lexeme → Prop) : List Lexeme → List Lexeme → Prop
  | nil : Heads S [] []
  | cons {token : Token} {o o' : Nat} {rest rest' : List Lexeme} (hab : S ⟨token, o⟩ ⟨token, o'⟩)
    (hl : List.Forall₂ S rest rest') : Heads S (⟨token, o⟩ :: rest) (⟨token, o'⟩ :: rest')

theorem heads (hS : ∀ {a b}, S a b → a.token = b.token) (hl : List.Forall₂ S lexemes lexemes') :
    Heads S lexemes lexemes' := by
  cases hl with
  | nil => exact .nil
  | @cons a b _ _ hab hl =>
    obtain ⟨token, o⟩ := a
    obtain ⟨token', o'⟩ := b
    obtain rfl : token = token' := hS hab
    exact .cons hab hl

/-- The fault may be found at this token: what it names is the token. -/
def Fault.Names (token : Token) : Fault → Prop
  | unexpectedChar c => token = .char c
  | unexpectedToken t => token = t
  | unknownCommand name => token = .command name
  | expected _ => True
  | unexpectedEnd _ => False
  | emptyOperatorName => True

/-- The fault may be found at the end of the text: it names no token. -/
def Fault.AtEnd : Fault → Prop
  | expected _ | unexpectedEnd _ | emptyOperatorName => True
  | unexpectedChar _ | unexpectedToken _ | unknownCommand _ => False

/-- Two errors have one fault, at lexemes that match or at the ends of both texts. -/
inductive Points (S : Lexeme → Lexeme → Prop) (finish finish' : Nat) :
    ParseError → ParseError → Prop
  | lexeme {fault : Fault} {a b : Lexeme} (h : S a b) (hf : fault.Names a.token) :
    Points S finish finish' ⟨fault, a.offset⟩ ⟨fault, b.offset⟩
  | finish {fault : Fault} (hf : fault.AtEnd) :
    Points S finish finish' ⟨fault, finish⟩ ⟨fault, finish'⟩

/-- Two readers came to the same: they read the same and left lexemes that match, or they met with
errors that match. -/
inductive Alike (S : Lexeme → Lexeme → Prop) (finish finish' : Nat) :
    Attempt (α × List Lexeme) → Attempt (α × List Lexeme) → Prop
  | ok {a : α} {rest rest' : List Lexeme} (h : List.Forall₂ S rest rest') :
    Alike S finish finish' (.ok (a, rest)) (.ok (a, rest'))
  | error {e e' : ParseError} (h : Points S finish finish' e e') :
    Alike S finish finish' (.error e) (.error e')

namespace Alike

theorem bind {x x' : Attempt (α × List Lexeme)}
    {f f' : α × List Lexeme → Attempt (β × List Lexeme)} (h : Alike S finish finish' x x')
    (hf : ∀ a rest rest', List.Forall₂ S rest rest' →
      Alike S finish finish' (f (a, rest)) (f' (a, rest'))) :
    Alike S finish finish' (x >>= f) (x' >>= f') := by
  cases h with
  | ok h => exact hf _ _ _ h
  | error h => exact .error h

/-- What is made of the notation read does not matter. -/
theorem map {x x' : Attempt (α × List Lexeme)} (g : α → β) (h : Alike S finish finish' x x') :
    Alike S finish finish' (x >>= fun p => .ok (g p.1, p.2))
      (x' >>= fun p => .ok (g p.1, p.2)) :=
  h.bind fun _ _ _ hl => .ok hl

end Alike

/-- Whatever ends a list, lexemes that match lead both readers of lists to the same. -/
def ReadAlike (S : Lexeme → Lexeme → Prop) (finish finish' : Nat)
    (readList readList' : ListReader) : Prop :=
  ∀ ending lexemes lexemes', List.Forall₂ S lexemes lexemes' →
    Alike S finish finish' (readList ending lexemes) (readList' ending lexemes')

theorem missing_alike (finish finish' : Nat) (atEnd otherwise : Expectation)
    (hl : List.Forall₂ S lexemes lexemes') :
    Alike (α := α) S finish finish' (missing finish atEnd otherwise lexemes)
      (missing finish' atEnd otherwise lexemes') := by
  cases hl with
  | nil => exact .error (.finish trivial)
  | cons hab _ => exact .error (.lexeme hab trivial)

/-- An error that names no token stands where the lexemes begin. -/
theorem offsetOf_points {fault : Fault} (hname : ∀ token, fault.Names token) (hend : fault.AtEnd)
    (hl : List.Forall₂ S lexemes lexemes') :
    Points S finish finish' ⟨fault, offsetOf finish lexemes⟩
      ⟨fault, offsetOf finish' lexemes'⟩ := by
  cases hl with
  | nil => exact .finish hend
  | cons hab _ => exact .lexeme hab (hname _)

section Readers

variable (hS : ∀ {a b}, S a b → a.token = b.token) {readList readList' : ListReader}
  (hR : ReadAlike S finish finish' readList readList')

include hS

/-! ## Readers without lists -/

theorem readScriptGlyphs_alike (hl : List.Forall₂ S lexemes lexemes') :
    (readScriptGlyphs lexemes').1 = (readScriptGlyphs lexemes).1 ∧
      List.Forall₂ S (readScriptGlyphs lexemes).2 (readScriptGlyphs lexemes').2 := by
  obtain ⟨hr, hr', -⟩ := takeGlyphs_carries hS Symbol.superscript? hl
  obtain ⟨hs, hs', -⟩ := takeGlyphs_carries hS Symbol.subscript? hr'
  obtain ⟨ht, ht', -⟩ := takeGlyphs_carries hS Symbol.superscript? hs'
  unfold readScriptGlyphs
  simp only [hr, hs, ht]
  split
  · exact ⟨rfl, ht'⟩
  · exact ⟨rfl, hs'⟩

theorem readNameLetters_alike (hl : List.Forall₂ S lexemes lexemes') :
    Alike S finish finish' (readNameLetters finish lexemes) (readNameLetters finish' lexemes') := by
  induction hl with
  | nil => exact .error (.finish trivial)
  | @cons a b _ _ hab hl ih =>
    obtain ⟨token, o⟩ := a
    obtain ⟨token', o'⟩ := b
    obtain rfl : token = token' := hS hab
    cases token with
    | endGroup => exact .ok hl
    | char c =>
      simp only [readNameLetters]
      split
      · exact ih.map (c :: ·)
      · exact .error (.lexeme hab rfl)
    | _ => exact .error (.lexeme hab rfl)

theorem readOperatorName_alike (hl : List.Forall₂ S lexemes lexemes') :
    Alike S finish finish' (readOperatorName finish lexemes)
      (readOperatorName finish' lexemes') := by
  have hnone : Points S finish finish' ⟨.expected .openBrace, offsetOf finish lexemes⟩
      ⟨.expected .openBrace, offsetOf finish' lexemes'⟩ :=
    offsetOf_points (fun _ => trivial) trivial hl
  cases heads hS hl with
  | nil => exact .error hnone
  | @cons token o o' _ _ hab ht =>
    cases token with
    | beginGroup =>
      refine (readNameLetters_alike hS ht).bind fun letters rest rest' hrest => ?_
      simp only
      split
      · exact .error (offsetOf_points (fun _ => trivial) trivial hrest)
      · exact .ok hrest
    | _ => exact .error hnone

theorem readRight_alike (hl : List.Forall₂ S lexemes lexemes') :
    Alike S finish finish' (readRight finish lexemes) (readRight finish' lexemes') := by
  have hnone := missing_alike (α := Node) finish finish' .delimiter .delimiterAfterRight hl
  cases heads hS hl with
  | nil => exact hnone
  | @cons token o o' _ _ hab ht =>
    cases token with
    | char c | command name =>
      simp only [readRight]
      split
      · exact .ok ht
      · exact hnone
    | _ => exact hnone

/-! ## Readers with lists -/

include hR

theorem readGroup_alike (hl : List.Forall₂ S lexemes lexemes') :
    Alike S finish finish' (readGroup finish readList lexemes)
      (readGroup finish' readList' lexemes') := by
  have hnone := missing_alike (α := List Node) finish finish' .openBrace .openBrace hl
  cases heads hS hl with
  | nil => exact hnone
  | @cons token o o' _ _ hab ht =>
    cases token with
    | beginGroup => exact hR _ _ _ ht
    | _ => exact hnone

theorem readScriptArgument_alike (hl : List.Forall₂ S lexemes lexemes') :
    Alike S finish finish' (readScriptArgument finish readList lexemes)
      (readScriptArgument finish' readList' lexemes') := by
  have hnone := missing_alike (α := List Node) finish finish' .scriptArgument .scriptArgument hl
  cases heads hS hl with
  | nil => exact hnone
  | @cons token o o' _ _ hab ht =>
    cases token with
    | beginGroup => exact hR _ _ _ ht
    | char c =>
      simp only [readScriptArgument]
      split
      · exact .ok ht
      · exact hnone
    | command name =>
      simp only [readScriptArgument]
      cases Symbol.greekMacro? name with
      | none => exact hnone
      | some letter => exact .ok ht
    | _ => exact hnone

theorem readScript?_alike (mark : Token) (hl : List.Forall₂ S lexemes lexemes') :
    Alike S finish finish' (readScript? finish readList mark lexemes)
      (readScript? finish' readList' mark lexemes') := by
  cases heads hS hl with
  | nil => exact .ok .nil
  | @cons token o o' _ _ hab ht =>
    simp only [readScript?]
    split
    · exact (readScriptArgument_alike hS hR ht).map some
    · exact .ok (.cons hab ht)

theorem readScriptPair_alike (hl : List.Forall₂ S lexemes lexemes') :
    Alike S finish finish' (readScriptPair finish readList lexemes)
      (readScriptPair finish' readList' lexemes') := by
  refine (readScript?_alike hS hR .superscript hl).bind fun exponent _ _ hl => ?_
  refine (readScript?_alike hS hR .subscript hl).bind fun subscript _ _ hl => ?_
  simp only
  split
  · exact .ok hl
  · exact (readScript?_alike hS hR .superscript hl).map fun exponent => (exponent, subscript)

theorem readLeft_alike (hl : List.Forall₂ S lexemes lexemes') :
    Alike S finish finish' (readLeft finish readList lexemes)
      (readLeft finish' readList' lexemes') := by
  have hnone := missing_alike (α := Node) finish finish' .delimiter .delimiterAfterLeft hl
  cases heads hS hl with
  | nil => exact hnone
  | @cons token o o' _ _ hab ht =>
    cases token with
    | char c =>
      simp only [readLeft]
      split_ifs
      · exact .ok ht
      · exact (hR _ _ _ ht).map (Node.wrapped .abs)
      · exact hnone
    | command name =>
      simp only [readLeft]
      split
      · exact .ok ht
      · rename_i corner _
        exact (hR _ _ _ ht).map (Node.wrapped corner.wrap)
      · exact hnone
    | _ => exact hnone

theorem readRadical_alike (hl : List.Forall₂ S lexemes lexemes') :
    Alike S finish finish' (readRadical finish readList lexemes)
      (readRadical finish' readList' lexemes') := by
  have hsquare := (readGroup_alike hS hR hl).map (Node.radical none)
  cases heads hS hl with
  | nil => exact hsquare
  | @cons token o o' _ _ hab ht =>
    unfold readRadical
    split
    · rename_i heq
      cases heq
      exact (hR _ _ _ ht).bind fun index _ _ ht =>
        (readGroup_alike hS hR ht).map (Node.radical (some index))
    · rename_i hne
      split
      · rename_i heq
        cases heq
        exact absurd rfl (hne _ _)
      · exact hsquare

theorem readCommand_alike (command : Command) (hl : List.Forall₂ S lexemes lexemes') :
    Alike S finish finish' (readCommand finish readList lexemes command)
      (readCommand finish' readList' lexemes' command) := by
  cases command with
  | frac =>
    exact (readGroup_alike hS hR hl).bind fun numerator _ _ hl =>
      (readGroup_alike hS hR hl).map fun denominator => some (Node.frac numerator denominator)
  | sqrt => exact (readRadical_alike hS hR hl).map some
  | wrap wrap => exact (readGroup_alike hS hR hl).map fun ns => some (Node.wrapped wrap ns)
  | corner corner => exact (hR _ _ _ hl).map fun ns => some (Node.wrapped corner.wrap ns)
  | operatorName => exact (readOperatorName_alike hS hl).map some
  | big op =>
    exact (readScriptPair_alike hS hR hl).map fun (top, bottom) =>
      some (Node.big op (top.getD []) (bottom.getD []))
  | left => exact (readLeft_alike hS hR hl).map some
  | right => exact (readRight_alike hS hl).map some
  | times | paren c | spacing | letter c | function name => exact .ok hl

omit hS in
theorem readChar_alike {c : Char} {o o' : Nat} (hab : S ⟨.char c, o⟩ ⟨.char c, o'⟩)
    (hl : List.Forall₂ S lexemes lexemes') :
    Alike S finish finish' (readChar readList c o lexemes) (readChar readList' c o' lexemes') := by
  unfold readChar
  split
  · exact (hR _ _ _ hl).map (Node.wrapped .abs)
  · split
    · exact .ok hl
    · split
      · exact .ok hl
      · split
        · exact .ok hl
        · exact .error (.lexeme hab rfl)

theorem readItem_alike (ending : Ending) (hl : List.Forall₂ S lexemes lexemes') :
    Alike S finish finish' (readItem finish readList ending lexemes)
      (readItem finish' readList' ending lexemes') := by
  have hscripts := (readScriptPair_alike hS hR hl).map fun (exponent, subscript) =>
    [Node.scripts exponent subscript]
  cases heads hS hl with
  | nil => exact .error (.finish trivial)
  | @cons token o o' _ _ hab ht =>
    cases token with
    | endGroup => exact .error (.lexeme hab rfl)
    | beginGroup => exact hR _ _ _ ht
    | superscript | subscript => exact hscripts
    | char c =>
      simp only [readItem]
      split
      · obtain ⟨hnode, hrest⟩ := readScriptGlyphs_alike hS (.cons hab ht)
        rw [hnode]
        exact .ok hrest
      · exact (readChar_alike hR hab ht).map fun node => [node]
    | command name =>
      simp only [readItem]
      split
      · exact (readCommand_alike hS hR _ ht).map Option.toList
      · exact .error (.lexeme hab rfl)

end Readers

section Lists

variable (hS : ∀ {a b}, S a b → a.token = b.token)

include hS

/-- Lexemes that match are read the same, or refused alike. -/
theorem readListWith_alike (finish finish' fuel : Nat) (ending : Ending) (openBrackets : Nat)
    (hl : List.Forall₂ S lexemes lexemes') :
    Alike S finish finish' (readListWith finish fuel ending openBrackets lexemes)
      (readListWith finish' fuel ending openBrackets lexemes') := by
  induction fuel generalizing ending openBrackets lexemes lexemes' with
  | zero => exact .error (.finish trivial)
  | succ fuel ih =>
    cases hc : ending.close? openBrackets lexemes with
    | some rest =>
      obtain ⟨rest', hc', hrest, -⟩ := close?_carries hS hc hl
      simp only [readListWith, hc, hc']
      exact .ok hrest
    | none =>
      have hc' := close?_none_carries hS hc hl
      simp only [readListWith, hc, hc', bracketsAfter_carries hS hl]
      have hitem := readItem_alike hS (fun inner _ _ hl => ih inner 0 hl) ending hl
      exact hitem.bind fun nodes _ _ hl => (ih _ _ hl).map (nodes ++ ·)

/-- Texts whose lexemes match are read as the same notation, or refused for the same fault. -/
theorem readLexemes_alike {text text' : Lexemes} (hl : List.Forall₂ S text.items text'.items) :
    (∃ ns, readLexemes text = .ok ns ∧ readLexemes text' = .ok ns) ∨
      ∃ e e', readLexemes text = .error e ∧ readLexemes text' = .error e' ∧
        Points S text.finish text'.finish e e' := by
  have halike := readListWith_alike hS text.finish text'.finish (text.items.length + 1) .input 0 hl
  unfold readLexemes
  rw [← hl.length_eq]
  generalize readListWith text.finish _ _ _ _ = x at halike
  generalize readListWith text'.finish _ _ _ _ = x' at halike
  cases halike with
  | ok _ => exact .inl ⟨_, rfl, rfl⟩
  | error h => exact .inr ⟨_, _, rfl, rfl, h⟩

end Lists

end FormulaEditor.Tex
