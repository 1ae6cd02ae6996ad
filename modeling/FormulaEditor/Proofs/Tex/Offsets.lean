import FormulaEditor.Proofs.Tex.Legible
import Mathlib.Data.List.Forall2

/-!
# What a reading depends on

The readers look at tokens only. Lexemes that match in their tokens are read the same, whatever their
offsets, and with any fuel that exceeds their number.
-/

namespace FormulaEditor.Tex

variable {S : Lexeme → Lexeme → Prop} (hS : ∀ {a b}, S a b → a.token = b.token)
  {finish size : Nat} (finish' : Nat) {R R' : ListReading} {lexemes lexemes' rest : List Lexeme}
  {ns : List Node} {n : Node}

/-- What is left of both texts matches again, and there is no more of it than the bound says. -/
def Leaves (S : Lexeme → Lexeme → Prop) (bound : Nat) (rest rest' : List Lexeme) : Prop :=
  List.Forall₂ S rest rest' ∧ rest.length ≤ bound

theorem Leaves.mono {bound bound' : Nat} {rest rest' : List Lexeme} (h : Leaves S bound rest rest')
    (hle : bound ≤ bound') : Leaves S bound' rest rest' :=
  ⟨h.1, Nat.le_trans h.2 hle⟩

/-- What the first reading accepts from fewer than `size` lexemes the second one accepts from lexemes
that match. -/
def Carries (S : Lexeme → Lexeme → Prop) (R R' : ListReading) (size : Nat) : Prop :=
  ∀ ending lexemes ns rest lexemes', lexemes.length < size → R ending lexemes ns rest →
    List.Forall₂ S lexemes lexemes' →
    ∃ rest', R' ending lexemes' ns rest' ∧ Leaves S lexemes.length rest rest'

include hS in
/-- The first lexemes match, and so do the lexemes after them. -/
theorem cons_of_forall₂ {token : Token} {o : Nat}
    (h : List.Forall₂ S (⟨token, o⟩ :: lexemes) lexemes') :
    ∃ o' tail, lexemes' = ⟨token, o'⟩ :: tail ∧ List.Forall₂ S lexemes tail := by
  cases h with
  | @cons _ b _ tail hab ht =>
    obtain ⟨token', o'⟩ := b
    obtain rfl : token = token' := hS hab
    exact ⟨o', tail, rfl, ht⟩

/-! ## Endings -/

include hS in
theorem close?_carries {ending : Ending} {openBrackets : Nat}
    (h : ending.close? openBrackets lexemes = some rest) (hl : List.Forall₂ S lexemes lexemes') :
    ∃ rest', ending.close? openBrackets lexemes' = some rest' ∧
      Leaves S lexemes.length rest rest' := by
  unfold Ending.close? at h
  split at h
  · cases h
    cases hl
    exact ⟨[], rfl, .nil, Nat.le_refl _⟩
  · cases h
    obtain ⟨o', tail, rfl, ht⟩ := cons_of_forall₂ hS hl
    exact ⟨tail, rfl, ht, by simp⟩
  · obtain ⟨o', tail, rfl, ht⟩ := cons_of_forall₂ hS hl
    split at h
    · cases h
      exact ⟨tail, if_pos ‹_›, ht, by simp⟩
    · cases h
  · cases h
    obtain ⟨o', tail, rfl, ht⟩ := cons_of_forall₂ hS hl
    exact ⟨tail, rfl, ht, by simp⟩
  · cases h
    obtain ⟨o', tail, rfl, ht⟩ := cons_of_forall₂ hS hl
    obtain ⟨o'', tail, rfl, ht'⟩ := cons_of_forall₂ hS ht
    exact ⟨tail, rfl, ht', by simp; omega⟩
  · rename_i corner name o rest'
    obtain ⟨o', tail, rfl, ht⟩ := cons_of_forall₂ hS hl
    split at h
    · cases h
      exact ⟨tail, if_pos ‹_›, ht, by simp⟩
    · rename_i hne
      split at h
      · obtain ⟨o'', tail, rfl, ht'⟩ := cons_of_forall₂ hS ht
        split at h
        · cases h
          refine ⟨tail, ?_, ht', by simp; omega⟩
          simp only [Ending.close?, if_neg hne]
          exact if_pos ‹_›
        · cases h
      · cases h
  · cases h

include hS in
/-- A list that does not end here does not end at lexemes that match. -/
theorem close?_none_carries {ending : Ending} {openBrackets : Nat}
    (h : ending.close? openBrackets lexemes = none) (hl : List.Forall₂ S lexemes lexemes') :
    ending.close? openBrackets lexemes' = none := by
  cases h' : ending.close? openBrackets lexemes' with
  | none => rfl
  | some rest' =>
    obtain ⟨rest, hr, -⟩ := close?_carries (S := flip S) (fun hab => (hS hab).symm) h' hl.flip
    rw [h] at hr
    cases hr

include hS in
theorem bracketsAfter_carries {openBrackets : Nat} (hl : List.Forall₂ S lexemes lexemes') :
    bracketsAfter openBrackets lexemes' = bracketsAfter openBrackets lexemes := by
  cases hl with
  | nil => rfl
  | @cons a b _ _ hab _ =>
    obtain ⟨token, o⟩ := a
    obtain ⟨token', o'⟩ := b
    obtain rfl : token = token' := hS hab
    unfold bracketsAfter
    split <;> split <;> simp_all

/-! ## Readers without lists -/

include hS in
theorem takeGlyphs_carries (table : Char → Option Char) (hl : List.Forall₂ S lexemes lexemes') :
    (takeGlyphs table lexemes').1 = (takeGlyphs table lexemes).1 ∧
      List.Forall₂ S (takeGlyphs table lexemes).2 (takeGlyphs table lexemes').2 ∧
      (takeGlyphs table lexemes).2.length + (takeGlyphs table lexemes).1.length =
        lexemes.length := by
  fun_induction takeGlyphs table lexemes generalizing lexemes' with
  | case1 c o rest p hp run rest' heq ih =>
    obtain ⟨o', tail, rfl, ht⟩ := cons_of_forall₂ hS hl
    obtain ⟨hrun, hrest, hlen⟩ := ih ht
    rw [heq] at hrun hrest hlen
    simp only [takeGlyphs, hp, hrun, List.length_cons]
    exact ⟨trivial, hrest, by simp only at hlen; omega⟩
  | case2 c o rest hp =>
    obtain ⟨o', tail, rfl, ht⟩ := cons_of_forall₂ hS hl
    simp only [takeGlyphs, hp]
    exact ⟨trivial, hl, by simp⟩
  | case3 lexemes hne =>
    have : takeGlyphs table lexemes' = ([], lexemes') := by
      cases hl with
      | nil => rfl
      | @cons a b _ _ hab _ =>
        obtain ⟨token, o⟩ := a
        obtain ⟨token', o'⟩ := b
        obtain rfl : token = token' := hS hab
        cases token with
        | char c => exact absurd rfl (hne c o _)
        | _ => rfl
    rw [this]
    exact ⟨rfl, hl, rfl⟩

include hS in
theorem readScriptGlyphs_carries {c : Char} {o : Nat} (hc : isScriptGlyph c)
    (h : readScriptGlyphs (⟨.char c, o⟩ :: lexemes) = (n, rest))
    (hl : List.Forall₂ S (⟨.char c, o⟩ :: lexemes) lexemes') :
    ∃ rest', readScriptGlyphs lexemes' = (n, rest') ∧ Leaves S lexemes.length rest rest' := by
  obtain ⟨hr, hr', hlen⟩ := takeGlyphs_carries hS Symbol.superscript? hl
  obtain ⟨hs, hs', hlen'⟩ := takeGlyphs_carries hS Symbol.subscript? hr'
  obtain ⟨ht, ht', hlen''⟩ := takeGlyphs_carries hS Symbol.superscript? hs'
  have hone : (takeGlyphs Symbol.superscript? (⟨.char c, o⟩ :: lexemes)).1 = [] →
      (takeGlyphs Symbol.subscript?
        (takeGlyphs Symbol.superscript? (⟨.char c, o⟩ :: lexemes)).2).1 ≠ [] := by
    intro he
    cases hp : Symbol.superscript? c with
    | some p => simp [takeGlyphs, hp] at he
    | none =>
      obtain ⟨p, hp'⟩ := Option.isSome_iff_exists.mp
        (show (Symbol.subscript? c).isSome by simpa [isScriptGlyph, hp] using hc)
      simp [takeGlyphs, hp, hp']
  unfold readScriptGlyphs at h ⊢
  simp only [hr, hs, ht] at h ⊢
  simp only [List.length_cons] at hlen
  split at h
  · rename_i he
    cases h
    refine ⟨_, by rw [if_pos he], ht', ?_⟩
    have := List.length_pos_iff.mpr (hone (by simpa using he))
    omega
  · rename_i he
    cases h
    refine ⟨_, by rw [if_neg he], hs', ?_⟩
    have := List.length_pos_iff.mpr (show _ ≠ [] by simpa using he)
    omega

include hS in
theorem readNameLetters_carries {letters : List Char}
    (h : readNameLetters finish lexemes = .ok (letters, rest))
    (hl : List.Forall₂ S lexemes lexemes') :
    ∃ rest', readNameLetters finish' lexemes' = .ok (letters, rest') ∧
      Leaves S lexemes.length rest rest' := by
  fun_induction readNameLetters finish lexemes generalizing lexemes' letters rest with
  | case1 => cases h
  | case2 o rest =>
    cases h
    obtain ⟨o', tail, rfl, ht⟩ := cons_of_forall₂ hS hl
    exact ⟨tail, rfl, ht, by simp⟩
  | case3 c o rest hc ih =>
    obtain ⟨o', tail, rfl, ht⟩ := cons_of_forall₂ hS hl
    obtain ⟨⟨cs, rest''⟩, hcs, h⟩ := bind_eq_ok.mp h
    cases h
    obtain ⟨rest', hr, hleaves⟩ := ih hcs ht
    refine ⟨rest', ?_, hleaves.mono (by simp)⟩
    simp only [readNameLetters, hc, ↓reduceIte, hr, bind, Except.bind]
  | case4 | case5 => cases h

include hS in
theorem readOperatorName_carries (h : readOperatorName finish lexemes = .ok (n, rest))
    (hl : List.Forall₂ S lexemes lexemes') :
    ∃ rest', readOperatorName finish' lexemes' = .ok (n, rest') ∧
      Leaves S lexemes.length rest rest' := by
  unfold readOperatorName at h
  split at h
  · obtain ⟨o', tail, rfl, ht⟩ := cons_of_forall₂ hS hl
    obtain ⟨⟨letters, rest''⟩, hletters, h⟩ := bind_eq_ok.mp h
    simp only at h
    split at h
    · cases h
    · rename_i hne
      cases h
      obtain ⟨rest', hr, hleaves⟩ := readNameLetters_carries hS finish' hletters ht
      refine ⟨rest', ?_, hleaves.mono (by simp)⟩
      simp only [readOperatorName, hr, bind, Except.bind, if_neg hne]
  · cases h

include hS in
theorem readRight_carries (h : readRight finish lexemes = .ok (n, rest))
    (hl : List.Forall₂ S lexemes lexemes') :
    ∃ rest', readRight finish' lexemes' = .ok (n, rest') ∧ Leaves S lexemes.length rest rest' := by
  unfold readRight at h
  split at h
  · obtain ⟨o', tail, rfl, ht⟩ := cons_of_forall₂ hS hl
    split at h
    · rename_i hc
      cases h
      exact ⟨tail, if_pos hc, ht, by simp⟩
    · exact absurd h missing_ne_ok
  · obtain ⟨o', tail, rfl, ht⟩ := cons_of_forall₂ hS hl
    split at h
    · rename_i hc
      cases h
      exact ⟨tail, if_pos hc, ht, by simp⟩
    · exact absurd h missing_ne_ok
  · exact absurd h missing_ne_ok

/-! ## Judgements -/

section Judgements

include hS

variable (hR : Carries S R R' size)

include hR

theorem GroupBy.carries (h : GroupBy R lexemes ns rest) (hlt : lexemes.length ≤ size)
    (hl : List.Forall₂ S lexemes lexemes') :
    ∃ rest', GroupBy R' lexemes' ns rest' ∧ Leaves S (lexemes.length - 1) rest rest' := by
  obtain ⟨h⟩ := h
  obtain ⟨o', tail, rfl, ht⟩ := cons_of_forall₂ hS hl
  obtain ⟨rest', hr, hleaves⟩ := hR _ _ _ _ _ hlt h ht
  exact ⟨rest', .intro hr, hleaves.mono (by simp)⟩

theorem ArgumentBy.carries (h : ArgumentBy R lexemes ns rest) (hlt : lexemes.length ≤ size)
    (hl : List.Forall₂ S lexemes lexemes') :
    ∃ rest', ArgumentBy R' lexemes' ns rest' ∧ Leaves S lexemes.length rest rest' := by
  cases h with
  | group h =>
    obtain ⟨o', tail, rfl, ht⟩ := cons_of_forall₂ hS hl
    obtain ⟨rest', hr, hleaves⟩ := hR _ _ _ _ _ hlt h ht
    exact ⟨rest', .group hr, hleaves.mono (by simp)⟩
  | char h =>
    obtain ⟨o', tail, rfl, ht⟩ := cons_of_forall₂ hS hl
    exact ⟨tail, .char h, ht, by simp⟩
  | letter h =>
    obtain ⟨o', tail, rfl, ht⟩ := cons_of_forall₂ hS hl
    exact ⟨tail, .letter h, ht, by simp⟩

theorem ScriptBy.carries {mark : Token} {script : Option (List Node)}
    (h : ScriptBy R mark lexemes script rest) (hlt : lexemes.length ≤ size)
    (hl : List.Forall₂ S lexemes lexemes') :
    ∃ rest', ScriptBy R' mark lexemes' script rest' ∧
      Leaves S (if script.isSome then lexemes.length - 1 else lexemes.length) rest rest' := by
  cases h with
  | present h =>
    obtain ⟨o', tail, rfl, ht⟩ := cons_of_forall₂ hS hl
    obtain ⟨rest', hr, hleaves⟩ := h.carries hS hR (by simp at hlt; omega) ht
    exact ⟨rest', .present hr, hleaves.mono (by simp)⟩
  | absent h =>
    refine ⟨lexemes', .absent fun l hhead => ?_, hl, by simp⟩
    cases hl with
    | nil => cases hhead
    | cons hab _ =>
      cases hhead
      rw [← hS hab]
      exact h _ rfl

theorem PairBy.carries {exponent subscript : Option (List Node)}
    (h : PairBy R lexemes exponent subscript rest) (hlt : lexemes.length ≤ size)
    (hl : List.Forall₂ S lexemes lexemes') :
    ∃ rest', PairBy R' lexemes' exponent subscript rest' ∧
      Leaves S (if exponent.isSome ∨ subscript.isSome then lexemes.length - 1
        else lexemes.length) rest rest' := by
  cases h with
  | exponentFirst h h' =>
    obtain ⟨middle, hm, hmiddle⟩ := h.carries hS hR hlt hl
    have hle := hmiddle.2
    simp only [Option.isSome_some, ↓reduceIte] at hle
    obtain ⟨rest', hr, hleaves⟩ := h'.carries hS hR (by omega) hmiddle.1
    refine ⟨rest', .exponentFirst hm hr, hleaves.mono ?_⟩
    split <;> simp <;> omega
  | subscriptFirst hn h h' =>
    obtain ⟨same, hsame, -⟩ := hn.carries hS hR hlt hl
    obtain rfl : same = lexemes' := by
      cases hsame
      rfl
    obtain ⟨middle, hm, hmiddle⟩ := h.carries hS hR hlt hl
    have hle := hmiddle.2
    obtain ⟨rest', hr, hleaves⟩ := h'.carries hS hR (by split at hle <;> omega) hmiddle.1
    refine ⟨rest', .subscriptFirst hsame hm hr, hleaves.mono ?_⟩
    split at hle <;> split <;> split <;> simp_all <;> omega

theorem LeftBy.carries (h : LeftBy R lexemes n rest) (hlt : lexemes.length ≤ size)
    (hl : List.Forall₂ S lexemes lexemes') :
    ∃ rest', LeftBy R' lexemes' n rest' ∧ Leaves S lexemes.length rest rest' := by
  cases h with
  | paren h =>
    obtain ⟨o', tail, rfl, ht⟩ := cons_of_forall₂ hS hl
    exact ⟨tail, .paren h, ht, by simp⟩
  | brace h =>
    obtain ⟨o', tail, rfl, ht⟩ := cons_of_forall₂ hS hl
    exact ⟨tail, .brace h, ht, by simp⟩
  | bar h =>
    obtain ⟨o', tail, rfl, ht⟩ := cons_of_forall₂ hS hl
    obtain ⟨rest', hr, hleaves⟩ := hR _ _ _ _ _ hlt h ht
    exact ⟨rest', .bar hr, hleaves.mono (by simp)⟩
  | corner hn h =>
    obtain ⟨o', tail, rfl, ht⟩ := cons_of_forall₂ hS hl
    obtain ⟨rest', hr, hleaves⟩ := hR _ _ _ _ _ hlt h ht
    exact ⟨rest', .corner hn hr, hleaves.mono (by simp)⟩

theorem CommandBy.carries {command : Command} {n : Option Node}
    (h : CommandBy R finish command lexemes n rest) (hlt : lexemes.length < size)
    (hl : List.Forall₂ S lexemes lexemes') :
    ∃ rest', CommandBy R' finish' command lexemes' n rest' ∧
      Leaves S lexemes.length rest rest' := by
  cases h with
  | frac h h' =>
    obtain ⟨middle, hm, hmiddle⟩ := h.carries hS hR (Nat.le_of_lt hlt) hl
    have hle := hmiddle.2
    obtain ⟨rest', hr, hleaves⟩ := h'.carries hS hR (by omega) hmiddle.1
    exact ⟨rest', .frac hm hr, hleaves.mono (by omega)⟩
  | squareRoot h =>
    obtain ⟨rest', hr, hleaves⟩ := h.carries hS hR (Nat.le_of_lt hlt) hl
    exact ⟨rest', .squareRoot hr, hleaves.mono (by omega)⟩
  | root h h' =>
    obtain ⟨o', tail, rfl, ht⟩ := cons_of_forall₂ hS hl
    simp only [List.length_cons] at hlt
    obtain ⟨middle, hm, hmiddle⟩ := hR _ _ _ _ _ (by omega) h ht
    have hle := hmiddle.2
    obtain ⟨rest', hr, hleaves⟩ := h'.carries hS hR (by omega) hmiddle.1
    exact ⟨rest', .root hm hr, hleaves.mono (by simp; omega)⟩
  | wrap h =>
    obtain ⟨rest', hr, hleaves⟩ := h.carries hS hR (Nat.le_of_lt hlt) hl
    exact ⟨rest', .wrap hr, hleaves.mono (by omega)⟩
  | corner h =>
    obtain ⟨rest', hr, hleaves⟩ := hR _ _ _ _ _ hlt h hl
    exact ⟨rest', .corner hr, hleaves⟩
  | operatorName h =>
    obtain ⟨rest', hr, hleaves⟩ := readOperatorName_carries hS finish' h hl
    exact ⟨rest', .operatorName hr, hleaves⟩
  | big h =>
    obtain ⟨rest', hr, hleaves⟩ := h.carries hS hR (Nat.le_of_lt hlt) hl
    exact ⟨rest', .big hr, hleaves.mono (by split <;> omega)⟩
  | left h =>
    obtain ⟨rest', hr, hleaves⟩ := h.carries hS hR (Nat.le_of_lt hlt) hl
    exact ⟨rest', .left hr, hleaves⟩
  | right h =>
    obtain ⟨rest', hr, hleaves⟩ := readRight_carries hS finish' h hl
    exact ⟨rest', .right hr, hleaves⟩
  | times => exact ⟨lexemes', .times, hl, Nat.le_refl _⟩
  | paren => exact ⟨lexemes', .paren, hl, Nat.le_refl _⟩
  | spacing => exact ⟨lexemes', .spacing, hl, Nat.le_refl _⟩
  | letter => exact ⟨lexemes', .letter, hl, Nat.le_refl _⟩
  | function => exact ⟨lexemes', .function, hl, Nat.le_refl _⟩

theorem ItemBy.carries (h : ItemBy R finish lexemes ns rest) (hlt : lexemes.length ≤ size)
    (hl : List.Forall₂ S lexemes lexemes') :
    ∃ rest', ItemBy R' finish' lexemes' ns rest' ∧ Leaves S (lexemes.length - 1) rest rest' := by
  cases h with
  | group h =>
    obtain ⟨o', tail, rfl, ht⟩ := cons_of_forall₂ hS hl
    obtain ⟨rest', hr, hleaves⟩ := hR _ _ _ _ _ hlt h ht
    exact ⟨rest', .group hr, hleaves⟩
  | @scripts l _ _ _ _ hmark h =>
    obtain ⟨token, o⟩ := l
    obtain ⟨rest', hr, hleaves⟩ := h.carries hS hR hlt hl
    obtain ⟨o', tail, rfl, ht⟩ := cons_of_forall₂ hS hl
    refine ⟨rest', .scripts hmark hr, hleaves.mono (Nat.le_of_eq ?_)⟩
    exact if_pos (h.isSome hmark)
  | glyphs hc h =>
    obtain ⟨rest', hr, hleaves⟩ := readScriptGlyphs_carries hS hc h hl
    obtain ⟨o', tail, rfl, ht⟩ := cons_of_forall₂ hS hl
    exact ⟨rest', .glyphs hc hr, hleaves⟩
  | bar h =>
    obtain ⟨o', tail, rfl, ht⟩ := cons_of_forall₂ hS hl
    obtain ⟨rest', hr, hleaves⟩ := hR _ _ _ _ _ hlt h ht
    exact ⟨rest', .bar hr, hleaves⟩
  | paren hc =>
    obtain ⟨o', tail, rfl, ht⟩ := cons_of_forall₂ hS hl
    exact ⟨tail, .paren hc, ht, by simp⟩
  | binary hc =>
    obtain ⟨o', tail, rfl, ht⟩ := cons_of_forall₂ hS hl
    exact ⟨tail, .binary hc, ht, by simp⟩
  | atom hc hg hb =>
    obtain ⟨o', tail, rfl, ht⟩ := cons_of_forall₂ hS hl
    exact ⟨tail, .atom hc hg hb, ht, by simp⟩
  | command hn h =>
    obtain ⟨o', tail, rfl, ht⟩ := cons_of_forall₂ hS hl
    obtain ⟨rest', hr, hleaves⟩ := h.carries hS finish' hR hlt ht
    exact ⟨rest', .command hn hr, hleaves⟩

end Judgements

include hS in
/-- Lexemes that match are read the same, once the fuel exceeds their number. -/
theorem readListWith_carries {fuel fuel' openBrackets : Nat} {ending : Ending}
    (h : readListWith finish fuel ending openBrackets lexemes = .ok (ns, rest))
    (hlt : lexemes.length < fuel') (hl : List.Forall₂ S lexemes lexemes') :
    ∃ rest', readListWith finish' fuel' ending openBrackets lexemes' = .ok (ns, rest') ∧
      Leaves S lexemes.length rest rest' := by
  induction fuel generalizing fuel' ending openBrackets lexemes lexemes' ns rest with
  | zero => cases h
  | succ fuel ih =>
    obtain ⟨fuel', rfl⟩ : ∃ k, fuel' = k + 1 := ⟨fuel' - 1, by omega⟩
    obtain ⟨hc, rfl⟩ | ⟨hc, first, middle, more, hi, hm, rfl⟩ := (readListWith_iff finish).mp h
    · obtain ⟨rest', hr, hleaves⟩ := close?_carries hS hc hl
      exact ⟨rest', (readListWith_iff finish').mpr (.inl ⟨hr, rfl⟩), hleaves⟩
    · have hcarries : Carries S (listsInside finish fuel).reading
          (listsInside finish' fuel').reading fuel' :=
        fun ending lexemes ns rest lexemes' hlt h hl => ih h hlt hl
      obtain ⟨middle', hi', hmiddle⟩ :=
        hi.carries hS finish' hcarries (Nat.le_of_lt_succ hlt) hl
      have hle := hmiddle.2
      have hpos : lexemes.length ≠ 0 := by
        rintro hnil
        obtain rfl := List.eq_nil_of_length_eq_zero hnil
        cases hi
      obtain ⟨rest', hr, hleaves⟩ := ih hm (show _ < fuel' by omega) hmiddle.1
      refine ⟨rest', (readListWith_iff finish').mpr (.inr ⟨close?_none_carries hS hc hl,
        first, middle', more, hi', ?_, rfl⟩), hleaves.mono (by omega)⟩
      rwa [bracketsAfter_carries hS hl]

end FormulaEditor.Tex
