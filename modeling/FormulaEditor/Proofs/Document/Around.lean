import FormulaEditor.Proofs.Document.Insert
import FormulaEditor.Proofs.Document.Seam
import FormulaEditor.Proofs.Formula.Amending
import FormulaEditor.Proofs.Operand.Matched

/-!
# Typing around operands

A fraction or an exponent typed beside operands takes them in. Read backwards that is an element
taken apart, so all other elements stay, and the leaves keep their order. Parens match afterwards in
each of the lists concerned if they matched in the list of the caret.
-/

namespace FormulaEditor

open OperandToken (Matched absorbLeft absorbRight)

/-- How an element holds the operands on both sides of it: a fraction the left one above and the
right one below, scripts the right one as their exponent. -/
def GreedyKind.Holds (kind : GreedyKind) (f : Formula) (e : ElementId)
    (left right : List ElementId) : Prop :=
  match kind with
  | .frac => ∃ numerator denominator, f.element e = .frac numerator denominator ∧
      f.elements numerator = left ∧ f.elements denominator = right
  | .superscript => left = [] ∧ ∃ exponent,
      f.element e = .scripts (some exponent) none (some exponent) ∧ f.elements exponent = right

namespace Formula

variable {f g : Formula} {e : ElementId} {l : ListId} {kind : GreedyKind}
  {left right before after content : List ElementId} {pending pending' : List ElementId}

/-- Every paren of a list has its partner. -/
def ParensMatch (f : Formula) (l : ListId) : Prop :=
  (ParenMatches.of ((f.elements l).map f.kind)).isBalanced = true

/-! ## Taking apart, read backwards -/

/-- An element that is taken apart leaves all leaves in their order. -/
theorem GivesWay.leaves_eq (hf : f.Sound pending) (hg : g.Sound pending')
    (h : f.GivesWay g l e ((f.listsOf e).flatMap f.elements) (f.listsOf e))
    (hlists : f.listsOf e ≠ []) : g.leaves = f.leaves := by
  obtain ⟨i, right, hsplit⟩ := List.exists_cons_of_ne_nil hlists
  have hsplit : f.listsOf e = [] ++ i :: right := hsplit
  obtain ⟨hbefore, hafter⟩ := h.leaves_dissolved hf hg hsplit (Nat.zero_le _)
  simp only [List.take_zero, List.flatMap_nil, List.append_nil, List.nil_append] at hbefore hafter
  have hall := leavesBefore_append_leavesAfter f (startOf i)
  rw [startOf, ← hbefore, ← hafter, leavesBefore_append_leavesAfter] at hall
  exact hall

/-- An element that is taken apart is the one element that goes. -/
theorem GivesWay.allElements_perm (hf : f.Sound pending) (hg : g.Sound pending')
    (h : f.GivesWay g l e ((f.listsOf e).flatMap f.elements) (f.listsOf e)) :
    f.allElements.Perm (e :: g.allElements) := by
  have ha := Deletion.accounts_dissolved (g := g) hf h.reachable h.mem
  have hnot := Deletion.not_mem_held hf h.reachable h.mem
  have hmem : ∀ x, x ∈ g.allElements ↔ x ∈ f.allElements ∧ x ≠ e := fun x => by
    rw [h.mem_allElements_iff hf ha hg]
    tauto
  have hnodup : (e :: g.allElements).Nodup :=
    List.nodup_cons.mpr ⟨fun hc => ((hmem e).mp hc).2 rfl, hg.nodup_allElements⟩
  refine (List.perm_ext_iff_of_nodup hf.nodup_allElements hnodup).mpr fun x => ?_
  have he : e ∈ f.allElements :=
    hf.mem_allElements.mpr ⟨l, hf.mem_elements.mp h.mem, h.reachable⟩
  rw [List.mem_cons, hmem]
  by_cases hx : x = e
  · simp [hx, he]
  · simp [hx]

/-! ## Parens -/

theorem ofKind_eq_leftParen (k : Kind) :
    (OperandToken.ofKind k == .leftParen) = k.isLeftParen := by
  unfold OperandToken.ofKind
  cases k <;> grind [Kind.isNumberPart, Kind.isLeftParen]

theorem ofKind_eq_rightParen (k : Kind) :
    (OperandToken.ofKind k == .rightParen) = k.isRightParen := by
  unfold OperandToken.ofKind
  cases k <;> grind [Kind.isNumberPart, Kind.isRightParen]

theorem opened_map_ofKind (k : Nat) (kinds : List Kind) :
    OperandToken.opened k (kinds.map .ofKind) =
      openAfter Kind.isLeftParen Kind.isRightParen k kinds := by
  rw [OperandToken.opened, openAfter_map]
  simp only [ofKind_eq_leftParen, ofKind_eq_rightParen]

/-- The parts that elements play in operands. -/
def parts (f : Formula) (xs : List ElementId) : List OperandToken :=
  xs.map fun x => .ofKind (f.kind x)

theorem operandTokens_eq : f.operandTokens l = f.parts (f.elements l) := rfl

@[simp] theorem length_parts (xs : List ElementId) : (f.parts xs).length = xs.length :=
  List.length_map _

@[simp] theorem parts_append (xs ys : List ElementId) :
    f.parts (xs ++ ys) = f.parts xs ++ f.parts ys :=
  List.map_append

theorem parts_congr {xs : List ElementId} (h : ∀ x ∈ xs, g.element x = f.element x) :
    g.parts xs = f.parts xs :=
  List.map_congr_left fun x hx => by rw [kind, h x hx, kind]

theorem parensMatch_iff : f.ParensMatch l ↔ Matched (f.operandTokens l) := by
  have htokens : f.operandTokens l = ((f.elements l).map f.kind).map .ofKind := by
    rw [operandTokens, List.map_map]
    rfl
  rw [ParensMatch, ParenMatches.of, isBalanced_scan_iff, Matched, htokens, opened_map_ofKind,
    List.length_nil]

/-! ## The operands go into the new element -/

section Taking

variable (h : f.Amends g l e content) (hl : f.HasList l)

include h hl

variable {numerator denominator exponent : ListId}

/-- A new fraction takes in both operands. -/
theorem Amends.takeIn_frac (hx : g.element e = .frac numerator denominator)
    (hempty : ∀ i ∈ g.listsOf e, g.elements i = []) (hes : g.Ready (e :: (left ++ right))) :
    ∃ g', ((g.replaceRange numerator 0 0 left).1.replaceRange denominator 0 0 right).1 = g' ∧
      f.Amends g' l e content ∧ g'.Ready [e] ∧ GreedyKind.frac.Holds g' e left right := by
  have hlists : g.listsOf e = [numerator, denominator] := by
    rw [listsOf, hx]
    rfl
  have hne : numerator ≠ denominator := by
    have hnodup := (hes.whole e List.mem_cons_self).nodup
    simpa [hlists] using hnodup
  have hnodup := hes.nodup
  simp only [List.nodup_cons, List.mem_append, not_or, List.nodup_append] at hnodup
  obtain ⟨⟨hel, her⟩, -, -, hlr⟩ := hnodup
  obtain ⟨h₁, hnum, hother, hready⟩ := h.takeIn hl (i := numerator)
    (by simp [hlists]) (hempty _ (by simp [hlists]))
    (hes.sublist ((List.sublist_append_left left right).trans (List.sublist_cons_self e _)))
  have hlists₁ : (g.replaceRange numerator 0 0 left).1.listsOf e = [numerator, denominator] := by
    rw [listsOf_replaceRange, hlists]
  have hes₁ := hready (e :: right)
    (hes.sublist ((List.sublist_append_right left right).cons_cons e))
    (List.forall_mem_cons.mpr ⟨hel, fun x hx hc => hlr x hc x hx rfl⟩)
  have hempty₁ := (hother denominator hne.symm).trans (hempty denominator (by simp [hlists]))
  obtain ⟨h₂, hden, hother₂, hready₂⟩ := h₁.takeIn hl (i := denominator)
    (by simp [hlists₁]) hempty₁ (hes₁.sublist (List.sublist_cons_self e right))
  refine ⟨_, rfl, h₂, ?_, numerator, denominator, ?_, ?_, hden⟩
  · exact hready₂ [e] (hes₁.sublist (List.cons_sublist_cons.mpr (List.nil_sublist right)))
      (by simpa using her)
  · rw [element_replaceRange, element_replaceRange, hx]
  · exact (hother₂ numerator hne).trans hnum

/-- A new exponent takes in the right operand, and is opened. -/
theorem Amends.takeIn_superscript (hx : g.element e = .scripts (some exponent) none none)
    (hempty : ∀ i ∈ g.listsOf e, g.elements i = []) (hes : g.Ready (e :: right)) :
    ∃ g', (g.replaceRange exponent 0 0 right).1.openScript e true = .ok (g', exponent) ∧
      f.Amends g' l e content ∧ g'.Ready [e] ∧ GreedyKind.superscript.Holds g' e [] right := by
  have hlists : g.listsOf e = [exponent] := by
    rw [listsOf, hx]
    rfl
  obtain ⟨her, -⟩ := List.nodup_cons.mp hes.nodup
  obtain ⟨h₁, hexp, -, hready⟩ := h.takeIn hl (i := exponent)
    (by simp [hlists]) (hempty _ (by simp [hlists])) (hes.sublist (List.sublist_cons_self e right))
  have hx₁ : (g.replaceRange exponent 0 0 right).1.element e = .scripts (some exponent) none none :=
    element_replaceRange.trans hx
  have he₁ := hready [e] (hes.sublist (List.cons_sublist_cons.mpr (List.nil_sublist right)))
    (by simpa using her)
  have hmem : e ∈ [e] := List.mem_singleton_self e
  have ho := opened_old h₁.tidy (he₁.hasElement e hmem) (he₁.whole e hmem) hx₁ (.inl rfl)
  have hx₂ : ((g.replaceRange exponent 0 0 right).1.setElement e
      (.scripts (some exponent) none (some exponent))).element e =
        .scripts (some exponent) none (some exponent) := by
    rw [element_setElement, if_pos ⟨rfl, he₁.hasElement e hmem⟩]
  have hlists₂ : ((g.replaceRange exponent 0 0 right).1.setElement e
      (.scripts (some exponent) none (some exponent))).listsOf e =
        (g.replaceRange exponent 0 0 right).1.listsOf e := by
    rw [listsOf, hx₂, listsOf, hx₁]
    rfl
  refine ⟨_, ?_, h₁.opened ho fun i hi => .inl (hlists₂ ▸ hi),
    ho.ready (he₁.hasElement e hmem) (he₁.parent e hmem), rfl, exponent, hx₂, hexp⟩
  simp [openScript, hx₁]

end Taking

end Formula

namespace GreedyKind

variable {kind : GreedyKind} {f g : Formula} {e : ElementId} {left right : List ElementId}

/-- What is in the lists of the element is what there is to the left and to the right. -/
theorem Holds.contents (h : kind.Holds f e left right) :
    (f.listsOf e).flatMap f.elements = left ++ right := by
  cases kind with
  | frac =>
    obtain ⟨numerator, denominator, hx, rfl, rfl⟩ := h
    simp [Formula.listsOf, hx, Element.lists]
  | superscript =>
    obtain ⟨rfl, exponent, hx, rfl⟩ := h
    simp [Formula.listsOf, hx, Element.lists]

theorem Holds.congr (h : kind.Holds f e left right) (hx : g.element e = f.element e)
    (helements : ∀ i ∈ f.listsOf e, g.elements i = f.elements i) : kind.Holds g e left right := by
  cases kind with
  | frac =>
    obtain ⟨numerator, denominator, hx', rfl, rfl⟩ := h
    exact ⟨numerator, denominator, hx.trans hx',
      helements _ (by simp [Formula.listsOf, hx', Element.lists]),
      helements _ (by simp [Formula.listsOf, hx', Element.lists])⟩
  | superscript =>
    obtain ⟨hleft, exponent, hx', rfl⟩ := h
    exact ⟨hleft, exponent, hx.trans hx',
      helements _ (by simp [Formula.listsOf, hx', Element.lists])⟩

theorem Holds.elements_eq (h : kind.Holds f e left right) (i : ListId) (hi : i ∈ f.listsOf e) :
    f.elements i = left ∨ f.elements i = right := by
  cases kind with
  | frac =>
    obtain ⟨numerator, denominator, hx, rfl, rfl⟩ := h
    obtain rfl | rfl : i = numerator ∨ i = denominator := by
      simpa [Formula.listsOf, hx, Element.lists] using hi
    · exact .inl rfl
    · exact .inr rfl
  | superscript =>
    obtain ⟨-, exponent, hx, rfl⟩ := h
    obtain rfl : i = exponent := by simpa [Formula.listsOf, hx, Element.lists] using hi
    exact .inr rfl

/-- The element itself is no paren. -/
theorem Holds.matched (h : kind.Holds f e left right) : Matched (f.parts [e]) := by
  cases kind with
  | frac =>
    obtain ⟨numerator, denominator, hx, -⟩ := h
    rw [Formula.parts, List.map_singleton, Formula.kind, hx]
    rfl
  | superscript =>
    obtain ⟨-, exponent, hx, -⟩ := h
    rw [Formula.parts, List.map_singleton, Formula.kind, hx]
    rfl

/-- The element can be entered from either side. -/
theorem Holds.boundary (h : kind.Holds f e left right) (side : Direction) :
    ∃ i ∈ f.listsOf e, (f.element e).boundary? side = some i := by
  have hne : (f.element e).lists ≠ [] := by
    cases kind with
    | frac =>
      obtain ⟨numerator, denominator, hx, -⟩ := h
      simp [hx, Element.lists]
    | superscript =>
      obtain ⟨-, exponent, hx, -⟩ := h
      simp [hx, Element.lists]
  unfold Element.boundary?
  by_cases hside : side.isBackward = true
  · rw [if_pos hside, List.getLast?_eq_some_getLast hne]
    exact ⟨_, List.getLast_mem hne, rfl⟩
  · rw [if_neg hside, List.head?_eq_some_head hne]
    exact ⟨_, List.head_mem hne, rfl⟩

end GreedyKind

namespace Document

variable {doc : Document} {e : ElementId} {l : ListId} {kind : GreedyKind}
  {left right before after : List ElementId} {pos : Nat}

theorem splice_of_split {run es : List ElementId} {start stop : Nat}
    (h : doc.formula.elements l = before ++ (run ++ after)) (hstart : start = before.length)
    (hstop : stop = before.length + run.length) :
    doc.splice l start stop es =
      .ok ({ doc with formula := (doc.formula.replaceRange l start stop es).1 }, run) := by
  subst hstart hstop
  have hlength := Formula.length_of_split h
  rw [splice_eq (Nat.le_add_right _ _) (by omega), Formula.range_of_split h]

/-- While words are not read, the element goes in at the caret, and the caret goes into it or past
it. -/
theorem place_of_convertsWords {g : Formula} (hw : doc.convertsWords = false)
    (he : doc.formula.parent e = none)
    (hpos : doc.caret.place.pos ≤ doc.formula.length doc.caret.place.list)
    (hg : g = (doc.formula.replaceRange doc.caret.place.list doc.caret.place.pos
      doc.caret.place.pos [e]).1) :
    doc.place e = .ok (moveCaret { doc with formula := g }
      (((doc.formula.element e).acceptor?.map g.endOf).getD
        ⟨doc.caret.place.list, doc.caret.place.pos + 1⟩)) := by
  have helement : g.element e = doc.formula.element e := hg ▸ Formula.element_replaceRange
  unfold Document.place
  simp only [he, Option.isSome_none, Bool.false_eq_true, ↓reduceIte, bind, Except.bind,
    splice_eq (Nat.le_refl _) hpos, ← hg]
  simp only [moveCaret, hw, Bool.false_eq_true, ↓reduceIte, helement]
  cases (doc.formula.element e).acceptor? with
  | none => rfl
  | some acceptor => rfl

/-- The element that holds the operands goes in at the caret, and the caret goes into it from a
side. -/
theorem place_entered (doc : Document) {f : Formula} (h : f.Amends doc.formula l e (before ++ after))
    (he : doc.formula.Ready [e]) (hholds : kind.Holds doc.formula e left right) (hl : f.HasList l)
    (hplace : doc.caret.place = ⟨l, before.length⟩) (hw : doc.convertsWords = false)
    (side : Direction) :
    ∃ doc', (do
        let doc ← doc.place e
        match (doc.formula.element e).boundary? side with
        | some l => .ok (doc.moveCaret (Formula.startOf l))
        | none => .ok doc) = .ok doc' ∧
      f.Amends doc'.formula l e (before ++ ([e] ++ after)) ∧
      kind.Holds doc'.formula e left right ∧
      ∃ i, (doc'.formula.element e).boundary? side = some i ∧
        doc'.caret.place = Formula.startOf i := by
  have hl' := h.hasList l hl
  have h₀ : f.Amends doc.formula l e (before ++ ([] ++ after)) := h
  have hnext : f.Amends (doc.formula.replaceRange l before.length before.length [e]).1 l e
      (before ++ ([e] ++ after)) :=
    h₀.exchange hl' he
  have hle : before.length ≤ doc.formula.length l := by
    rw [Formula.length, h.list, List.length_append]
    omega
  have hplaced := place_of_convertsWords hw (he.parent e (List.mem_singleton_self e))
    (by rw [hplace]; exact hle) rfl
  rw [hplace] at hplaced
  have hkeeps : kind.Holds (doc.formula.replaceRange l before.length before.length [e]).1 e
      left right := by
    refine hholds.congr Formula.element_replaceRange fun i hi => ?_
    have hil : l ≠ i := fun hc => h.new i hi (hc ▸ hl)
    rw [Formula.elements_replaceRange hl', if_neg hil]
  obtain ⟨i, -, hentered⟩ := hkeeps.boundary side
  refine ⟨moveCaret { doc with formula := (doc.formula.replaceRange l before.length before.length
    [e]).1 } (Formula.startOf i), ?_, hnext, hkeeps, i, hentered, rfl⟩
  rw [hplaced]
  simp only [bind, Except.bind, moveCaret, hentered]
  rfl

/-- Inserting around operands takes them out, makes the element that holds them and puts it in
between what was before the operands and what was after them. -/
theorem insertAround_amends (hf : doc.formula.Tidy) (hr : doc.formula.Reachable l)
    (hplace : doc.caret.place = ⟨l, pos⟩) (hw : doc.convertsWords = false)
    (hsplit : doc.formula.elements l = before ++ (left ++ (right ++ after)))
    (hpos : pos = before.length + left.length)
    (hleft : left.length =
      if kind.takesLeft then absorbLeft ((doc.formula.operandTokens l).take pos) else 0)
    (hright : right.length = absorbRight ((doc.formula.operandTokens l).drop pos)) :
    ∃ doc', doc.insertAround kind = .ok doc' ∧
      doc.formula.Amends doc'.formula l doc.formula.nextElement
        (before ++ ([doc.formula.nextElement] ++ after)) ∧
      kind.Holds doc'.formula doc.formula.nextElement left right ∧
      ∃ i, (doc'.formula.element doc.formula.nextElement).boundary?
          (if left.isEmpty then .right else .left) = some i ∧
        doc'.caret.place = Formula.startOf i := by
  have hl := hf.hasList_of_reachable hr
  have hlength := Formula.length_of_split hsplit
  obtain ⟨f₁, f₂, hf₁, hf₂, hsplit₁, hnext, h₂, hoperands⟩ :=
    hf.takeOut_both hr rfl hsplit
  have hsplit₀ : doc.formula.elements l = (before ++ left) ++ (right ++ after) := by
    rw [hsplit, List.append_assoc]
  have hspliceRight : doc.splice l pos (pos + right.length) [] =
      .ok ({ doc with formula := f₁ }, right) := by
    rw [splice_of_split hsplit₀ (by simp [hpos]) (by simp [hpos]), hf₁, hpos]
  have hspliceLeft : splice { doc with formula := f₁ } l (pos - left.length) pos [] =
      .ok ({ doc with formula := f₂ }, left) := by
    rw [splice_of_split hsplit₁ (by omega) (by omega), hf₂, hpos, Nat.add_sub_cancel]
  have htokens : ¬(doc.formula.operandTokens l).length < pos := by
    have : (doc.formula.operandTokens l).length = doc.formula.length l := by
      simp [Formula.operandTokens, Formula.length]
    omega
  have hstart : (⟨l, pos - left.length⟩ : Place) = ⟨l, before.length⟩ := by
    rw [hpos, Nat.add_sub_cancel]
  unfold insertAround
  simp only [hplace, if_neg htokens, ← hleft, ← hright, hspliceRight, hspliceLeft, bind, Except.bind,
    Document.plant, moveCaret, hstart]
  -- From here on it is one new element or the other.
  cases kind with
  | frac =>
    obtain ⟨f₃, ls, hplant, hls, hx, h₃, hes, hempty⟩ :=
      h₂.plant_beside (n := GreedyKind.frac.emptyNode) (k := 2) hnext hl hoperands rfl trivial
    obtain ⟨numerator, denominator, rfl⟩ := List.length_eq_two.mp hls
    have hx : f₃.element doc.formula.nextElement = .frac numerator denominator := hx
    obtain ⟨g, hg, h', he, hholds⟩ := h₃.takeIn_frac hl hx hempty hes
    obtain ⟨doc', hdoc', hspec⟩ := place_entered ⟨g, doc.caret.moveTo ⟨l, before.length⟩,
      doc.convertsWords⟩ h' he hholds hl rfl hw (if left.isEmpty then .right else .left)
    refine ⟨doc', ?_, hspec⟩
    simp only [hplant, hx, splice_eq (Nat.le_refl 0) (Nat.zero_le _), hg]
    exact hdoc'
  | superscript =>
    obtain rfl : left = [] := List.length_eq_zero_iff.mp hleft
    rw [List.nil_append] at hoperands
    obtain ⟨f₃, ls, hplant, hls, hx, h₃, hes, hempty⟩ :=
      h₂.plant_beside (n := GreedyKind.superscript.emptyNode) (k := 1) hnext hl hoperands rfl trivial
    obtain ⟨exponent, rfl⟩ := List.length_eq_one_iff.mp hls
    have hx : f₃.element doc.formula.nextElement = .scripts (some exponent) none none := hx
    obtain ⟨g, hopen, h', he, hholds⟩ := h₃.takeIn_superscript hl hx hempty hes
    obtain ⟨doc', hdoc', hspec⟩ := place_entered ⟨g, doc.caret.moveTo ⟨l, before.length⟩,
      doc.convertsWords⟩ h' he hholds hl rfl hw .right
    refine ⟨doc', ?_, hspec⟩
    simp only [hplant, hx, splice_eq (Nat.le_refl 0) (Nat.zero_le _), hopen]
    exact hdoc'

end Document

namespace Formula

variable {f g : Formula} {e : ElementId} {l : ListId} {kind : GreedyKind} {p : Place}
  {left right before after content : List ElementId}

/-- At a place, a new element stands in for a run before it and one after it. Otherwise all lists and
elements are what they were, and the leaves are in the order they were in. -/
structure Gathers (f g : Formula) (p : Place) (e : ElementId) (left right : List ElementId) :
    Prop where
  tidy : g.Tidy
  root : g.root = f.root
  new : e ∉ f.allElements
  allElements : g.allElements.Perm (e :: f.allElements)
  leaves : g.leaves = f.leaves
  list : ∃ before after, f.elements p.list = before ++ (left ++ (right ++ after)) ∧
    p.pos = before.length + left.length ∧ g.elements p.list = before ++ e :: after
  elements : ∀ i ≠ p.list, i ∉ g.listsOf e → g.elements i = f.elements i
  element : ∀ x ≠ e, g.element x = f.element x

section Enclosing

variable (hf : f.Tidy) (hsplit : f.elements l = before ++ (left ++ (right ++ after)))
  (h : f.Amends g l e (before ++ ([e] ++ after)))

include hsplit h

section Contents

variable (hcontents : (g.listsOf e).flatMap g.elements = left ++ right)

include hcontents

/-- The element could be taken apart again. -/
theorem Amends.givesWay :
    g.GivesWay f l e ((g.listsOf e).flatMap g.elements) (g.listsOf e) where
  root := h.root.symm
  reachable := h.reachable
  list := by
    refine ⟨before, after, h.list, ?_⟩
    rw [hsplit, hcontents, List.append_assoc]
  elements i hil hi := (h.elements i hil hi).symm
  element x hx := (h.element x hx).symm

include hf

theorem Amends.gathers {pos : Nat} (hpos : pos = before.length + left.length)
    (hlists : g.listsOf e ≠ []) : f.Gathers g ⟨l, pos⟩ e left right := by
  have hway := h.givesWay hsplit hcontents
  have hperm := hway.allElements_perm h.tidy.toSound hf.toSound
  exact {
    tidy := h.tidy
    root := h.root
    new := (List.nodup_cons.mp (hperm.nodup_iff.mp h.tidy.nodup_allElements)).1
    allElements := hperm
    leaves := (hway.leaves_eq h.tidy.toSound hf.toSound hlists).symm
    list := ⟨before, after, hsplit, hpos, h.list⟩
    elements := h.elements
    element := h.element }

end Contents

include hf

/-- Parens that match do so afterwards in the list and in the lists of the new element. -/
theorem Amends.parensMatch (hholds : kind.Holds g e left right) (he : ¬f.HasElement e)
    (hb : f.ParensMatch l)
    (hleft : left = [] ∨ left.length = absorbLeft (f.parts (before ++ left)))
    (hright : right.length = absorbRight (f.parts (right ++ after))) :
    g.ParensMatch l ∧ ∀ i ∈ g.listsOf e, g.ParensMatch i := by
  have hsame : ∀ x ∈ before ++ (left ++ (right ++ after)), g.element x = f.element x :=
    fun x hx => h.element x fun hc => he (hc ▸ hf.hasElement (hsplit ▸ hx))
  have hbefore : g.parts before = f.parts before := parts_congr fun x hx => hsame x (by simp [hx])
  have hleft' : g.parts left = f.parts left := parts_congr fun x hx => hsame x (by simp [hx])
  have hright' : g.parts right = f.parts right := parts_congr fun x hx => hsame x (by simp [hx])
  have hafter : g.parts after = f.parts after := parts_congr fun x hx => hsame x (by simp [hx])
  rw [parensMatch_iff, operandTokens_eq, hsplit] at hb
  simp only [parts_append] at hb hleft hright
  obtain ⟨hmleft, hmright⟩ := hb.operands (by simpa [parts] using hleft) (by simpa using hright)
  constructor
  · rw [← List.append_assoc (f.parts left)] at hb
    rw [parensMatch_iff, operandTokens_eq, h.list]
    simp only [parts_append, hbefore, hafter]
    exact hb.exchange (hmleft.append hmright) hholds.matched
  · intro i hi
    rw [parensMatch_iff, operandTokens_eq]
    obtain hi | hi := hholds.elements_eq i hi
    · rwa [hi, hleft']
    · rwa [hi, hright']

end Enclosing

end Formula

namespace Document

variable {doc : Document}

/-- A list comes apart before and after the runs on both sides of a position. -/
theorem exists_runs {α : Type} {xs : List α} {pos m n : Nat} (hm : m ≤ pos)
    (hn : pos + n ≤ xs.length) : ∃ before left right after,
      xs = before ++ (left ++ (right ++ after)) ∧ pos = before.length + left.length ∧
        left.length = m ∧ right.length = n := by
  refine ⟨(xs.take pos).take (pos - m), (xs.take pos).drop (pos - m), (xs.drop pos).take n,
    (xs.drop pos).drop n, ?_, ?_, ?_, ?_⟩
  · rw [List.take_append_drop, ← List.append_assoc, List.take_append_drop, List.take_append_drop]
  all_goals
    simp only [List.length_take, List.length_drop]
    omega

/-- Around a position, a list comes apart before and after the operands. -/
theorem exists_operands {f : Formula} {l : ListId} {pos : Nat} (hp : f.IsPlace ⟨l, pos⟩)
    (kind : GreedyKind) : ∃ before left right after,
      f.elements l = before ++ (left ++ (right ++ after)) ∧ pos = before.length + left.length ∧
        left.length =
          (if kind.takesLeft then absorbLeft ((f.operandTokens l).take pos) else 0) ∧
        right.length = absorbRight ((f.operandTokens l).drop pos) := by
  have hlength : (f.operandTokens l).length = (f.elements l).length := List.length_map _
  have hle : pos ≤ (f.elements l).length := hp.le_length
  refine exists_runs ?_ ?_
  · have hle' := OperandToken.absorbLeft_le ((f.operandTokens l).take pos)
    rw [List.length_take] at hle'
    split <;> omega
  · have hle' := OperandToken.absorbRight_le ((f.operandTokens l).drop pos)
    rw [List.length_drop] at hle'
    omega

/-- Inserting a fraction or an exponent around the operands beside the caret succeeds. There is one
element more then, which holds the operands, and the caret is at the beginning of one of its lists.
Everything else stays where it was, the leaves stay in their order, and parens that matched in the
list of the caret match there and in the lists of the new element. -/
theorem insertAround_operands (hf : doc.formula.Tidy) (hp : doc.formula.IsPlace doc.caret.place)
    (hw : doc.convertsWords = false) (hb : doc.formula.ParensMatch doc.caret.place.list)
    (kind : GreedyKind) :
    ∃ doc' e left right, doc.insertAround kind = .ok doc' ∧
      doc.formula.Gathers doc'.formula doc.caret.place e left right ∧
      left.length = (if kind.takesLeft then absorbLeft
        ((doc.formula.operandTokens doc.caret.place.list).take doc.caret.place.pos) else 0) ∧
      right.length = absorbRight
        ((doc.formula.operandTokens doc.caret.place.list).drop doc.caret.place.pos) ∧
      kind.Holds doc'.formula e left right ∧
      doc'.formula.ParensMatch doc.caret.place.list ∧
      (∀ i ∈ doc'.formula.listsOf e, doc'.formula.ParensMatch i) ∧
      ∃ i ∈ doc'.formula.listsOf e, doc'.caret.place = Formula.startOf i := by
  obtain ⟨⟨l, pos⟩, hplace⟩ : ∃ p, doc.caret.place = p := ⟨_, rfl⟩
  rw [hplace] at hp hb ⊢
  obtain ⟨before, left, right, after, hsplit, hpos, hleft, hright⟩ := exists_operands hp kind
  obtain ⟨doc', hinsert, hamends, hholds, k, hk, hcaret⟩ :=
    insertAround_amends hf hp.reachable hplace hw hsplit hpos hleft hright
  have htake : (doc.formula.operandTokens l).take pos = doc.formula.parts (before ++ left) := by
    rw [Formula.operandTokens_eq, hsplit, ← List.append_assoc, Formula.parts_append]
    exact List.take_left' (by simp [hpos])
  have hdrop : (doc.formula.operandTokens l).drop pos = doc.formula.parts (right ++ after) := by
    rw [Formula.operandTokens_eq, hsplit, ← List.append_assoc, Formula.parts_append]
    exact List.drop_left' (by simp [hpos])
  have hleft' : left = [] ∨ left.length = absorbLeft (doc.formula.parts (before ++ left)) := by
    rw [← htake]
    split at hleft
    · exact .inr hleft
    · exact .inl (List.length_eq_zero_iff.mp hleft)
  obtain ⟨hlist, hlists⟩ := hamends.parensMatch hf hsplit hholds
    Formula.not_hasElement_nextElement hb hleft' (hdrop ▸ hright)
  obtain ⟨i, hi, -⟩ := hholds.boundary .left
  have hgathers := hamends.gathers hf hsplit hholds.contents hpos (List.ne_nil_of_mem hi)
  exact ⟨doc', _, left, right, hinsert, hgathers, hleft, hright, hholds, hlist, hlists, k,
    Formula.mem_lists_of_boundary? hk, hcaret⟩

/-- Between a group and a root, a fraction takes the group above and the root below. -/
theorem insertAround_group : ∃ doc doc' : Document, ∃ e left right, doc.formula.Tidy ∧
    doc.formula.IsPlace doc.caret.place ∧ doc.convertsWords = false ∧
    doc.formula.ParensMatch doc.caret.place.list ∧ doc.insertAround .frac = .ok doc' ∧
    doc.formula.Gathers doc'.formula doc.caret.place e left right ∧ left.length = 3 ∧
    right.length = 1 ∧ GreedyKind.frac.Holds doc'.formula e left right ∧
    doc'.formula.ParensMatch doc.caret.place.list := by
  have hfilled : Node.EveryNode Node.Filled
      [.paren '(', .radical none [], .paren ')', .radical none [], .binary .plus] := by
    simp [Node.everyNode_cons, Node.everyNode_nil, Node.Filled, Node.lists]
  have hvalid := valid_ofNodes (b := false) hfilled
  have hplace : (ofNodes [.paren '(', .radical none [], .paren ')', .radical none [],
      .binary .plus] false).formula.IsPlace ⟨⟨0⟩, 3⟩ := ⟨⟨0, .here _⟩, by decide⟩
  have hmatch : (ofNodes [.paren '(', .radical none [], .paren ')', .radical none [],
      .binary .plus] false).formula.ParensMatch ⟨0⟩ := by
    unfold Formula.ParensMatch
    decide
  obtain ⟨doc', e, left, right, hinsert, hgathers, hleft, hright, hholds, hlist, -⟩ :=
    insertAround_operands (hvalid.moveCaret hplace).formula hplace rfl hmatch .frac
  refine ⟨_, doc', e, left, right, (hvalid.moveCaret hplace).formula, hplace, rfl, hmatch, hinsert,
    hgathers, ?_, ?_, hholds, hlist⟩
  · rw [hleft]
    decide
  · rw [hright]
    decide

end Document

end FormulaEditor
