import FormulaEditor.Proofs.Document.Wrapping
import FormulaEditor.Proofs.Formula.Locality

/-!
# Taking back what was typed

Typing puts a new element in at the caret, around runs on both sides of it, which may be empty. The
caret goes to where deleting backwards takes the element back: then all lists of the formula hold what
they held, and the caret is where it was.
-/

namespace FormulaEditor

/-- An element splits a list in one way if nothing stands twice in it. -/
theorem eq_of_split {α : Type} {xs ys xs' ys' : List α} {a : α} (hn : (xs ++ a :: ys).Nodup)
    (h : xs ++ a :: ys = xs' ++ a :: ys') : xs = xs' ∧ ys = ys' := by
  have hnot := (List.nodup_cons.mp (List.nodup_middle.mp hn)).1
  rw [List.mem_append, not_or] at hnot
  obtain ⟨hxs, -, hys⟩ := (List.append_cons_inj_of_notMem hnot.1 hnot.2).mp h
  exact ⟨hxs, hys⟩

/-- The caret goes into the element if that has lists, and it is no scripts with two halves. -/
structure Element.Simple (x : Element) : Prop where
  acceptor : x.acceptor? = none → x.lists = []
  single : ∀ exponent subscript acceptor, x ≠ .scripts (some exponent) (some subscript) acceptor

namespace Formula

variable {f g h : Formula} {e : ElementId} {l : ListId} {p q : Place} {i : Nat}

/-- At the first place a new element has gone in, around the runs on both sides of it. The second
place is directly behind the element if it is a leaf; otherwise it is at the beginning of the list of
the element that comes after what stood to the left. -/
structure Seats (f g : Formula) (p : Place) (e : ElementId) (q : Place) : Prop where
  new : ¬f.HasElement e
  single : ∀ exponent subscript acceptor,
    g.element e ≠ .scripts (some exponent) (some subscript) acceptor
  around : ∃ before left right after,
    f.elements p.list = before ++ (left ++ (right ++ after)) ∧
      p.pos = before.length + left.length ∧
      f.Amends g p.list e (before ++ ([e] ++ after)) ∧
      (g.listsOf e).flatMap g.elements = left ++ right ∧
      (g.listsOf e = [] ∧ q = ⟨p.list, p.pos + 1⟩ ∨
        ∃ lefts k rights, g.listsOf e = lefts ++ k :: rights ∧ lefts.flatMap g.elements = left ∧
          q = startOf k)

/-- Once the element has given way to what it holds, all is as it was. -/
theorem Seats.agrees (hs : f.Seats g p e q) (hf : f.Linked [])
    (hway : g.GivesWay h l e ((g.listsOf e).flatMap g.elements) (g.listsOf e)) :
    f.AgreesOn h fun _ => True := by
  obtain ⟨before, left, right, after, hsplit, -, hamends, hcontents, -⟩ := hs.around
  have hg := hamends.tidy
  obtain rfl : p.list = l := hg.toSound.eq_of_mem (by rw [hamends.list]; simp) hway.mem
  refine ⟨hway.root.trans hamends.root, fun k hk _ => ?_, fun k x hx => ?_⟩
  · by_cases hkp : k = p.list
    · subst hkp
      obtain ⟨before', after', hel, hel'⟩ := hway.list
      have hnodup := hg.nodup_elements p.list
      rw [hamends.list, List.singleton_append] at hel hnodup
      obtain ⟨rfl, rfl⟩ := eq_of_split hnodup hel
      rw [hel', hcontents, hsplit, List.append_assoc]
    · have hnew : k ∉ g.listsOf e := fun hc => hamends.new k hc hk
      rw [hway.elements k hkp hnew, hamends.elements k hkp hnew]
  · have hne : x ≠ e := fun hc => hs.new (hc ▸ hf.hasElement hx)
    rw [hway.element x hne, hamends.element x hne]

/-- Beside a leaf a deletion ends up where it begins. -/
theorem deletionPlace_of_leaf {d : Direction} (depth : Nat) (ha : f.adjacent? p d = some (i, e))
    (hlists : f.listsOf e = []) : f.deletionPlace d depth p = p := by
  cases depth with
  | zero => rfl
  | succ depth =>
    have hb : (f.element e).boundary? d = none := by
      unfold Element.boundary?
      rw [← listsOf, hlists]
      split <;> rfl
    unfold deletionPlace
    simp [ha, hb]

end Formula

/-- Entered from the side of the left operand, or from the other side if there is none, the element
has just that operand in the lists passed. -/
theorem GreedyKind.Holds.entered {kind : GreedyKind} {f : Formula} {e : ElementId}
    {left right : List ElementId} {k : ListId} (h : kind.Holds f e left right)
    (hk : (f.element e).boundary? (if left.isEmpty then .right else .left) = some k) :
    ∃ lefts rights, f.listsOf e = lefts ++ k :: rights ∧ lefts.flatMap f.elements = left := by
  cases kind with
  | frac =>
    obtain ⟨numerator, denominator, hx, rfl, -⟩ := h
    have hlists : f.listsOf e = [numerator, denominator] := by
      rw [Formula.listsOf, hx]
      rfl
    rw [hx] at hk
    cases hempty : f.elements numerator with
    | nil =>
      rw [hempty] at hk
      obtain rfl : numerator = k := Option.some.inj hk
      exact ⟨[], [denominator], hlists, rfl⟩
    | cons x xs =>
      rw [hempty] at hk
      obtain rfl : denominator = k := Option.some.inj hk
      exact ⟨[numerator], [], hlists, by simp [hempty]⟩
  | superscript =>
    obtain ⟨rfl, exponent, hx, -⟩ := h
    rw [hx] at hk
    obtain rfl : exponent = k := Option.some.inj hk
    exact ⟨[], [], by rw [Formula.listsOf, hx]; rfl, rfl⟩

namespace Document

open Formula

variable {doc : Document} {f g : Formula} {e : ElementId} {l : ListId} {p : Place} {i : Nat}

/-- Directly behind a leaf, deleting backwards takes it out. -/
theorem Resting.delete_behind_leaf (h : doc.Resting)
    (hget : (doc.formula.elements l)[i]? = some e) (hlists : doc.formula.listsOf e = [])
    (hplace : doc.caret.place = ⟨l, i + 1⟩) :
    ∃ doc', doc.delete .left = .ok (doc', []) ∧ doc'.Resting ∧
      doc.formula.GivesWay doc'.formula l e [] [] ∧ doc'.caret.place = ⟨l, i⟩ := by
  have hadjacent : doc.formula.adjacent? doc.caret.place .left = some (i, e) := by
    rw [hplace]
    exact adjacent?_eq_some.mpr ⟨by simp [adjacentIndex?], hget⟩
  obtain ⟨doc', o, hdelete, hrest, hdecided, hdesc, hfollows⟩ := h.delete_decided rfl
    (deletionPlace_of_leaf doc.formula.listSlots.size hadjacent hlists).symm
  cases hdecided with
  | nothing ha | dissolved ha | halved ha => simp [hadjacent] at ha
  | @removed j x ha =>
    obtain ⟨rfl, rfl⟩ : j = i ∧ x = e := by simpa [hadjacent, eq_comm] using ha
    obtain ⟨k, hk, hcaret⟩ := hfollows
    obtain rfl : j = k := by simpa [hadjacent] using hk
    cases hdesc with
    | removed _ _ hway =>
      obtain rfl := h.formula.toSound.eq_of_mem (List.mem_of_getElem? hget) hway.mem
      exact ⟨doc', hdelete, hrest, hway, by rw [hcaret, hplace]⟩

/-- At the beginning of a list of an element that is not two scripts, deleting backwards puts what
the element holds into its place. -/
theorem Resting.delete_at_opening (h : doc.Resting)
    (hget : (doc.formula.elements l)[i]? = some e) {lefts rights : List ListId} {k : ListId}
    (hlists : doc.formula.listsOf e = lefts ++ k :: rights)
    (hsingle : ∀ exponent subscript acceptor,
      doc.formula.element e ≠ .scripts (some exponent) (some subscript) acceptor)
    (hplace : doc.caret.place = startOf k) :
    ∃ doc', doc.delete .left = .ok (doc', []) ∧ doc'.Resting ∧
      doc.formula.GivesWay doc'.formula l e
        ((doc.formula.listsOf e).flatMap doc.formula.elements) (doc.formula.listsOf e) ∧
      doc'.caret.place = ⟨l, i + (lefts.flatMap doc.formula.elements).length⟩ := by
  have hg := h.formula
  obtain ⟨hparent, hposition⟩ := (hg.link e l i).mp hget
  have hadjacent : doc.formula.adjacent? doc.caret.place .left = none := by
    rw [hplace]
    rfl
  have howner : doc.formula.owner doc.caret.place.list = some e := by
    rw [hplace]
    exact hg.owner_of_mem (List.mem_of_getElem? hget) (by simp [hlists, startOf])
  obtain ⟨doc', o, hdelete, hrest, hdecided, hdesc, hfollows⟩ := h.delete_decided rfl
    (deletionPlace_of_adjacent doc.formula.listSlots.size hadjacent).symm
  cases hdecided with
  | removed ha => simp [hadjacent] at ha
  | nothing _ ho => simp [howner] at ho
  | halved _ ho hx =>
    obtain rfl := Option.some.inj (ho.symm.trans howner)
    exact absurd hx (hsingle _ _ _)
  | dissolved _ ho =>
    obtain rfl := Option.some.inj (ho.symm.trans howner)
    obtain ⟨outer, lefts', rights', -, houter, hlists', hcaret⟩ := hfollows
    obtain rfl := Option.some.inj (houter.symm.trans hparent)
    have hnodup := (hg.whole _ _ hparent).nodup
    rw [hlists] at hlists' hnodup
    rw [hplace] at hlists'
    obtain ⟨rfl, -⟩ := eq_of_split hnodup hlists'
    cases hdesc with
    | dissolved _ _ hway =>
      obtain rfl := hg.toSound.eq_of_mem (List.mem_of_getElem? hget) hway.mem
      exact ⟨doc', hdelete, hrest, hway, by rw [hcaret, hposition]⟩

/-- Deleting backwards takes the new element back. -/
theorem Resting.delete_seated (h : doc.Resting) (hf : f.Tidy)
    (hs : f.Seats doc.formula p e doc.caret.place) :
    ∃ doc', doc.delete .left = .ok (doc', []) ∧ doc'.Resting ∧
      f.AgreesOn doc'.formula (fun _ => True) ∧ doc'.caret.place = p := by
  obtain ⟨before, left, right, after, hsplit, hpos, hamends, hcontents, hcaret⟩ := hs.around
  have hget : (doc.formula.elements p.list)[before.length]? = some e := by
    rw [hamends.list]
    simp
  obtain ⟨hlists, hplace⟩ | ⟨lefts, k, rights, hlists, hleft, hplace⟩ := hcaret
  · rw [hlists, List.flatMap_nil] at hcontents
    obtain ⟨rfl, rfl⟩ := List.append_eq_nil_iff.mp hcontents.symm
    rw [List.length_nil, Nat.add_zero] at hpos
    obtain ⟨doc', hdelete, hrest, hway, hcaret⟩ :=
      h.delete_behind_leaf hget hlists (hpos ▸ hplace)
    refine ⟨doc', hdelete, hrest, hs.agrees hf.toLinked (l := p.list) ?_, by rw [hcaret, ← hpos]⟩
    rw [hlists]
    exact hway
  · obtain ⟨doc', hdelete, hrest, hway, hcaret⟩ := h.delete_at_opening hget hlists hs.single hplace
    exact ⟨doc', hdelete, hrest, hs.agrees hf.toLinked hway, by rw [hcaret, hleft, ← hpos]⟩

/-! ## What typing puts in -/

section Inserting

variable (h : doc.Resting) (hw : doc.convertsWords = false)

include h

/-- Where nothing is selected, an element goes in as it is. -/
theorem Resting.insert_eq {d : Direction} :
    Document.insert { doc with formula := g } e d = Document.place { doc with formula := g } e := by
  unfold Document.insert Document.giveSelection
  simp only [h.selecting, Bool.false_eq_true, ↓reduceIte, bind, Except.bind]

include hw

/-- A new element in which there is nothing goes in at the caret. -/
theorem Resting.place_seats (hnew : ¬doc.formula.HasElement e)
    (hamends : doc.formula.Amends g doc.caret.place.list e
      (doc.formula.elements doc.caret.place.list))
    (he : g.Ready [e]) (hempty : ∀ i ∈ g.listsOf e, g.elements i = [])
    (hx : (g.element e).Simple) :
    ∃ doc', Document.place { doc with formula := g } e = .ok doc' ∧
      doc.formula.Seats doc'.formula doc.caret.place e doc'.caret.place := by
  have hmem : e ∈ [e] := List.mem_singleton_self e
  have hp := h.caret.place
  have hl := hp.hasList h.formula
  have hl' := hamends.hasList _ hl
  obtain ⟨⟨l, pos⟩, hplace⟩ : ∃ p, doc.caret.place = p := ⟨_, rfl⟩
  rw [hplace] at hp hamends hl hl' ⊢
  obtain ⟨before, after, hsplit, rfl⟩ : ∃ before after,
      doc.formula.elements l = before ++ ([] ++ after) ∧ before.length = pos :=
    ⟨(doc.formula.elements l).take pos, (doc.formula.elements l).drop pos,
      (List.take_append_drop ..).symm, List.length_take_of_le hp.le_length⟩
  have hle : before.length ≤ g.length l := by
    rw [Formula.length, hamends.list]
    exact hp.le_length
  obtain ⟨g', hg'⟩ : ∃ g', g' = (g.replaceRange l before.length before.length [e]).1 := ⟨_, rfl⟩
  have hthere : doc.formula.Amends g' l e (before ++ ([e] ++ after)) := by
    rw [hsplit] at hamends
    rw [hg']
    exact hamends.exchange hl' he
  have hplaced : Document.place { doc with formula := g } e = _ :=
    place_of_convertsWords (g := g') hw (he.parent e hmem) (by rw [hplace]; exact hle)
      (by rw [hplace]; exact hg')
  have helement : g'.element e = g.element e := hg' ▸ element_replaceRange
  have hlists : g'.listsOf e = g.listsOf e := congrArg Element.lists helement
  have hempty' : ∀ i ∈ g'.listsOf e, g'.elements i = [] := fun i hi => by
    have hil : l ≠ i := fun hc => hthere.new i hi (hc ▸ hl)
    rw [hg', elements_replaceRange hl', if_neg hil]
    exact hempty i (hlists ▸ hi)
  have hnone : ∀ ls : List ListId, (∀ i ∈ ls, i ∈ g'.listsOf e) → ls.flatMap g'.elements = [] :=
    fun ls hls => List.flatMap_eq_nil_iff.mpr fun i hi => hempty' i (hls i hi)
  refine ⟨_, hplaced, hnew, helement ▸ hx.single, before, [], [], after, hsplit, by simp, hthere,
    hnone _ fun _ hi => hi, ?_⟩
  cases ha : (g.element e).acceptor? with
  | none => exact .inl ⟨hlists.trans (hx.acceptor ha), by simp [Document.moveCaret, Caret.moveTo, hplace]⟩
  | some acceptor =>
    have hacceptor : acceptor ∈ g'.listsOf e :=
      hlists ▸ (he.filled e hmem).mem_lists_of_acceptor? ha
    obtain ⟨lefts, rights, hsplits⟩ := List.append_of_mem hacceptor
    refine .inr ⟨lefts, acceptor, rights, hsplits, hnone _ fun i hi => by simp [hsplits, hi], ?_⟩
    simp [Document.moveCaret, Caret.moveTo, endOf, startOf, length, hempty' acceptor hacceptor]

theorem Resting.insertNode_seats {n : Node} {k : Nat} (hn : n.lists = List.replicate k [])
    (hfilled : n.Filled) (hx : ∀ ls, ls.length = k → (n.element ls).Simple) (d : Direction) :
    ∃ doc', doc.insertNode n d = .ok doc' ∧ doc'.Resting ∧
      doc.formula.Seats doc'.formula doc.caret.place doc.formula.nextElement doc'.caret.place := by
  have hf := h.formula
  have hp := h.caret.place
  have hamends := hf.amends hp.reachable not_hasElement_nextElement
  obtain ⟨g, ls, hplant, hls, helement, hamends', he, hempty⟩ :=
    hamends.plant_beside (n := n) (k := k) rfl (hp.hasList hf) .nil hn hfilled
  obtain ⟨doc', hplace, hseats⟩ :=
    h.place_seats hw not_hasElement_nextElement hamends' he hempty (helement ▸ hx ls hls)
  have hinsert : doc.insertNode n d = .ok doc' := by
    unfold Document.insertNode Document.plant
    rw [hplant]
    exact h.insert_eq.trans hplace
  have hnode : Node.EveryNode Node.Filled [n] :=
    Node.everyNode_filled hfilled fun ns hns => List.eq_of_mem_replicate (hn ▸ hns)
  exact ⟨doc', hinsert, (h.toValid.insertNode hnode d).of_eq_ok hinsert, hseats⟩

theorem Resting.insertScript_seats (hnone : doc.reusableScripts? none = none)
    (superscript : Bool) :
    ∃ doc', doc.insertScript superscript = .ok doc' ∧ doc'.Resting ∧
      doc.formula.Seats doc'.formula doc.caret.place doc.formula.nextElement doc'.caret.place := by
  have hp := h.caret.place
  obtain ⟨g, half, hopen, hamends, -, -, he, helement, hempty⟩ :=
    h.toValid.openScript_amends hp.reachable superscript
  obtain ⟨hlists, -, hacceptor⟩ := Element.withHalf_new superscript half
  have hx : (g.element doc.formula.nextElement).Simple := by
    rw [helement]
    exact ⟨by simp [hacceptor], by cases superscript <;> simp [Element.withHalf]⟩
  have hnothing : ∀ i ∈ g.listsOf doc.formula.nextElement, g.elements i = [] := fun i hi => by
    rw [listsOf, helement, hlists] at hi
    rw [List.mem_singleton.mp hi, hempty]
  obtain ⟨doc', hplace, hseats⟩ :=
    h.place_seats hw not_hasElement_nextElement hamends he hnothing hx
  have hinsert : doc.insertScript superscript = .ok doc' := by
    unfold Document.insertScript
    have hsel : doc.caret.selected? doc.formula = .ok none := by
      rw [Caret.selected?, h.selecting]
      rfl
    simp only [hsel, bind, Except.bind, hnone, Document.plant, Formula.plant,
      Formula.allocElement_snd, hopen]
    exact h.insert_eq.trans hplace
  exact ⟨doc', hinsert, (h.toValid.insertScript superscript).of_eq_ok hinsert, hseats⟩

/-- The caret enters the new element on the side of the left operand: the contents up to there are
just that operand. -/
theorem Resting.insertAround_seats (kind : GreedyKind) :
    ∃ doc', doc.insertAround kind = .ok doc' ∧ doc'.Resting ∧
      doc.formula.Seats doc'.formula doc.caret.place doc.formula.nextElement doc'.caret.place := by
  have hp := h.caret.place
  obtain ⟨⟨l, pos⟩, hplace⟩ : ∃ p, doc.caret.place = p := ⟨_, rfl⟩
  rw [hplace] at hp ⊢
  obtain ⟨before, left, right, after, hsplit, hpos, hleft, hright⟩ := exists_operands hp kind
  obtain ⟨doc', hinsert, hamends, hholds, k, hk, hcaret⟩ :=
    insertAround_amends h.formula hp.reachable hplace hw hsplit hpos hleft hright
  refine ⟨doc', hinsert, (h.insertAround kind).of_eq_ok hinsert, not_hasElement_nextElement, ?_,
    before, left, right, after, hsplit, hpos, hamends, hholds.contents, .inr ?_⟩
  · cases kind with
    | frac =>
      obtain ⟨numerator, denominator, hx, -⟩ := hholds
      simp [hx]
    | superscript =>
      obtain ⟨-, exponent, hx, -⟩ := hholds
      simp [hx]
  · obtain ⟨lefts, rights, hlists, hcontents⟩ := hholds.entered hk
    exact ⟨lefts, k, rights, hlists, hcontents, hcaret⟩

end Inserting

end Document

end FormulaEditor
