import FormulaEditor.Proofs.Document.Embedding

/-!
# Inserting into embedded documents

What is inserted into a document and into one that carries it ends at the same place, takes in the
same selection and the same operands. That an element does not lie in the selection handed to it is
known of the first document, and holds of the second one because nothing else is stored there under
the handles in question.
-/

namespace FormulaEditor

namespace Document

open Formula

variable {doc doc₁ : Document} {e : ElementId} {selection : List ElementId} {d : Direction}

/-- The element stands nowhere, or beside the selection. -/
def OutsideSelection (doc : Document) (e : ElementId) : Prop :=
  ∀ l, doc.formula.parent e = some l → doc.formula.Reachable l ∧
    ∀ s, doc.caret.selected? doc.formula = .ok (some s) →
      s.list = l ∧ e ∉ doc.formula.range s.list s.start s.stop

theorem outsideSelection_of_loose (he : doc.formula.parent e = none) : doc.OutsideSelection e :=
  fun l hl => by simp [he] at hl

/-- An element that stands nowhere or beside the selection does not lie in what a deletion of the
selection hands out. -/
theorem Valid.isInside_of_delete (hv : doc.Valid) (hs : doc.caret.selecting = true)
    (hout : doc.OutsideSelection e)
    (hdel : doc.delete d = .ok (doc₁, selection)) (depth : Nat) :
    doc₁.formula.isInside selection depth e = false := by
  obtain ⟨s, hsome, hsv, hdel'⟩ := hv.delete_selection hs d
  rw [hdel', Except.ok.injEq, Prod.mk.injEq] at hdel
  obtain ⟨rfl, rfl⟩ := hdel
  have hf := hv.formula
  have hl := hf.hasList_of_reachable hsv.reachable
  have hmem : e ∉ doc.formula.range s.list s.start s.stop := fun hc => by
    have hp := hf.mem_elements.mp (mem_elements_of_mem_range hc)
    exact ((hout _ hp).2 s hsome).2 hc
  refine (hv.remove hsv).formula.isInside_eq_false (hf.ready_range hl hsv.start_le .nil) depth hmem
    fun l hp => ?_
  obtain hp | ⟨hnil, -⟩ := hf.toLinked.parent_replaceRange_of_some hl .nil hp
  · obtain ⟨hr, hsel⟩ := hout l hp
    obtain ⟨rfl, -⟩ := hsel s hsome
    exact hf.reachable_replaceRange hr
  · cases hnil

end Document

namespace Handles

variable {r : Handles} {doc doc' : Document} {e : ElementId} {selection : List ElementId}
  {d : Direction}

namespace Embeds

open Formula

variable {f g : Formula} (h : r.Embeds f g)

include h

theorem holder? (e : ElementId) : g.holder? (r.element e) = (f.holder? e).map r.element := by
  unfold Formula.holder?
  rw [h.parent]
  cases f.parent e with
  | none => rfl
  | some l => exact h.owner l

theorem isInside (es : List ElementId) (depth : Nat) (e : ElementId) :
    g.isInside (es.map r.element) depth (r.element e) = f.isInside es depth e := by
  have hcontains : ∀ e, (es.map r.element).contains (r.element e) = es.contains e := by
    intro e
    rw [Bool.eq_iff_iff]
    simp [element_eq_iff]
  induction depth generalizing e with
  | zero => exact hcontains e
  | succ depth ih =>
    rw [Formula.isInside, Formula.isInside, hcontains, h.holder?]
    cases f.holder? e <;> simp [ih]

theorem receivingPlace? (e : ElementId) (d : Direction) :
    g.receivingPlace? (r.element e) d = (f.receivingPlace? e d).map r.place := by
  unfold Formula.receivingPlace?
  rw [h.element]
  rcases f.element e with _ | _ | _ | _ | _ | _ | ⟨_, _, _ | acceptor⟩ | _ | _ <;>
    simp only [Element.rename, Option.map_some, Option.map_none, h.endOf]
  split <;> rfl

theorem openScript (e : ElementId) (superscript : Bool) :
    Parallel (fun x y => r.Embeds x.1 y.1 ∧ y.2 = r.list x.2) (f.openScript e superscript)
      (g.openScript (r.element e) superscript) := by
  have hnew := h.adoptList e []
  have hnext := h.nextList_eq
  unfold Formula.openScript
  rw [h.element]
  rcases f.element e with _ | _ | _ | _ | _ | _ | ⟨exponent, subscript, acceptor⟩ | _ | _
  case scripts =>
    cases superscript with
    | true =>
      cases exponent with
      | some half => exact .ok ⟨h.setElement e (.scripts (some half) subscript (some half)), rfl⟩
      | none =>
        have hset := hnew.setElement e
          (.scripts (some f.nextList) subscript (some f.nextList))
        simp only [Element.rename, Option.map_some, ← hnext] at hset
        exact .ok ⟨hset, hnext⟩
    | false =>
      cases subscript with
      | some half => exact .ok ⟨h.setElement e (.scripts exponent (some half) (some half)), rfl⟩
      | none =>
        have hset := hnew.setElement e (.scripts exponent (some f.nextList) (some f.nextList))
        simp only [Element.rename, Option.map_some, ← hnext] at hset
        exact .ok ⟨hset, hnext⟩
  all_goals exact .error _

theorem operandTokens (l : ListId) : g.operandTokens (r.list l) = f.operandTokens l := by
  simp only [Formula.operandTokens, h.elements, List.map_map, Function.comp_def, h.kind]

end Embeds

namespace Carries

open Document

variable (h : r.Carries doc doc')

include h

/-! ## Handing a selection over -/

theorem acceptSelection (hin : ∀ depth, doc.formula.isInside selection depth e = false)
    (d : Direction) :
    Parallel r.Carries (doc.acceptSelection e selection d)
      (doc'.acceptSelection (r.element e) (selection.map r.element) d) := by
  unfold Document.acceptSelection
  simp only [h.formula.isInside, hin, h.formula.receivingPlace?]
  cases doc.formula.receivingPlace? e d with
  | none => exact .ok h
  | some p =>
    refine (h.splice p.list p.pos p.pos selection).bind ?_
    rintro ⟨d₁, _⟩ ⟨d₂, _⟩ - ⟨hd, -⟩
    exact .ok hd

theorem giveSelection (hv : doc.Valid) (hout : doc.OutsideSelection e) (d : Direction) :
    Parallel (fun x y => r.Carries x.1 y.1 ∧ y.2 = x.2) (doc.giveSelection e d)
      (doc'.giveSelection (r.element e) d) := by
  unfold Document.giveSelection
  rw [h.selecting]
  cases hs : doc.caret.selecting with
  | false => exact .ok ⟨h, rfl⟩
  | true =>
    refine (h.delete hv d).bind ?_
    rintro ⟨d₁, selection⟩ ⟨d₂, _⟩ hdel ⟨hd, rfl⟩
    refine (hd.acceptSelection (hv.isInside_of_delete hs hout hdel) d).bind ?_
    intro d₁ d₂ _ hd
    refine .ok ⟨hd, ?_⟩
    simp only [List.length_map]

theorem enter (e : ElementId) :
    Parallel r.Carries
      (match (doc.formula.element e).acceptor? with
        | some acceptor => .ok (doc.moveCaret (doc.formula.endOf acceptor))
        | none => (.ok doc : Except Misuse Document))
      (match (doc'.formula.element (r.element e)).acceptor? with
        | some acceptor => .ok (doc'.moveCaret (doc'.formula.endOf acceptor))
        | none => .ok doc') := by
  rw [h.formula.element, Element.acceptor?_rename]
  cases (doc.formula.element e).acceptor? with
  | none => exact .ok h
  | some acceptor =>
    simp only [Option.map_some, h.formula.endOf]
    exact .ok (h.moveCaret _)

theorem place (e : ElementId) : Parallel r.Carries (doc.place e) (doc'.place (r.element e)) := by
  unfold Document.place
  simp only [h.formula.parent, Option.isSome_map, h.caret_place]
  split
  · exact .error _
  · refine (h.splice doc.caret.place.list _ _ [e]).bind ?_
    rintro ⟨d₁, _⟩ ⟨d₂, _⟩ - ⟨(hd : r.Carries d₁ d₂), -⟩
    have hmove := hd.moveCaret ⟨doc.caret.place.list, doc.caret.place.pos + 1⟩
    have hwords := hmove.convertWords doc.caret.place.list
    change Parallel r.Carries (if d₁.convertsWords then _ else _) (if d₂.convertsWords then _ else _)
    rw [hd.convertsWords]
    -- Whether or not words are read again, the caret then goes into the element if that takes it.
    split
    · refine hwords.bind ?_
      intro d₁ d₂ _ hd
      exact hd.enter e
    · exact hmove.enter e

theorem insert (hv : doc.Valid) (hout : doc.OutsideSelection e) (d : Direction) :
    Parallel r.Carries (doc.insert e d) (doc'.insert (r.element e) d) := by
  refine (h.giveSelection hv hout d).bind ?_
  rintro ⟨d₁, _⟩ ⟨d₂, _⟩ - ⟨hd, -⟩
  exact hd.place e

/-- A new element stands nowhere. -/
theorem insert_loose (hv : doc.Valid) (he : doc.formula.parent e = none) (d : Direction) :
    Parallel r.Carries (doc.insert e d) (doc'.insert (r.element e) d) :=
  h.insert hv (outsideSelection_of_loose he) d

theorem insertNode (hv : doc.Valid) {n : Node} (hn : Node.EveryNode Node.Filled [n])
    (d : Direction) : Parallel r.Carries (doc.insertNode n d) (doc'.insertNode n d) := by
  obtain ⟨hplant, he⟩ := h.plant n
  obtain ⟨hg, hgrows, hready⟩ := hv.formula.plant hn
  unfold Document.insertNode
  simp only [he]
  exact hplant.insert_loose (hv.grows hg hgrows) (hready.parent _ (List.mem_singleton_self _)) d

theorem insertNodes (hv : doc.Resting) {ns : List Node} (hns : Node.EveryNode Node.Filled ns)
    (d : Direction) : Parallel r.Carries (doc.insertNodes ns d) (doc'.insertNodes ns d) := by
  induction ns generalizing doc doc' with
  | nil => exact .ok h
  | cons n ns ih =>
    obtain ⟨hn, hns⟩ := Node.everyNode_cons.mp hns
    have hn := Node.everyNode_singleton.mpr hn
    refine (h.insertNode hv.toValid hn d).bind ?_
    intro d₁ d₂ hd₁ hd
    exact ih hd ((hv.toValid.insertNode hn d).of_eq_ok hd₁) hns

/-! ## Scripts -/

theorem reusableScripts? (selected : Option Selection) :
    doc'.reusableScripts? (selected.map r.selection) =
      (doc.reusableScripts? selected).map (Prod.map r.element id) := by
  unfold Document.reusableScripts?
  -- One equation for each name that the search introduces, in the order in which they are used.
  extract_lets f' here' usable' scriptsAt?' beside' anchor' f here usable scriptsAt? beside anchor
  have hhere : here' = r.place here := h.caret_place
  have husable : usable' = usable := by
    funext i
    cases selected with
    | none => rfl
    | some s =>
      simp only [usable', usable, Option.map_some, hhere]
      exact congrArg (· && _) (decide_eq_decide.mpr list_eq_iff)
  have hscripts : ∀ i, scriptsAt?' i = (scriptsAt? i).map r.element := by
    intro i
    have helements : f'.elements here'.list = (f.elements here.list).map r.element := by
      rw [hhere]
      exact h.formula.elements here.list
    simp only [scriptsAt?', scriptsAt?, Option.bind_eq_bind, helements, List.getElem?_map, husable]
    cases (f.elements here.list)[i]? with
    | none => rfl
    | some e =>
      have hkind : f'.kind (r.element e) = f.kind e := h.formula.kind e
      simp only [Option.map_some, Option.bind_some, hkind]
      split <;> rfl
  have hbeside : ∀ pos, beside' pos = (beside pos).map (Prod.map r.element id) := by
    intro pos
    have hbefore : (if pos = 0 then none else scriptsAt?' (pos - 1)) =
        (if pos = 0 then none else scriptsAt? (pos - 1)).map r.element := by
      split
      · rfl
      · exact hscripts _
    simp only [beside', beside]
    rw [hbefore, hscripts]
    cases (if pos = 0 then none else scriptsAt? (pos - 1)) with
    | some e => rfl
    | none => cases scriptsAt? pos <;> rfl
  have hanchor : anchor' = anchor.map r.place := by
    have hcaret : doc'.caret.anchor = doc.caret.anchor.map r.place := by
      rw [h.caret]
      rfl
    simp only [anchor', anchor, hcaret, hhere]
    cases doc.caret.anchor with
    | none => rfl
    | some p =>
      have hsame : (r.list p.list = r.list here.list) = (p.list = here.list) :=
        propext list_eq_iff
      simp only [Option.map_some, Option.filter, Handles.place, hsame]
      split <;> rfl
  have hpos : here'.pos = here.pos := by
    rw [hhere]
    rfl
  rw [hbeside, hanchor, hpos]
  cases beside here.pos with
  | some x => rfl
  | none =>
    cases anchor with
    | none => rfl
    | some p => exact hbeside p.pos

theorem insertScript (hv : doc.Valid) (superscript : Bool) :
    Parallel r.Carries (doc.insertScript superscript) (doc'.insertScript superscript) := by
  unfold Document.insertScript
  refine (Parallel.of_map (h.selected? hv)).bind ?_
  rintro selected _ hselected rfl
  rw [h.reusableScripts?]
  cases hreuse : doc.reusableScripts? selected with
  | some x =>
    obtain ⟨e, d⟩ := x
    obtain ⟨f, half, hopen, ho, he, hs⟩ := hv.openScript_beside hselected hreuse superscript
    have hr := ho.keeps.reachable hv.caret.place.reachable
    refine (h.formula.openScript e superscript).bind ?_
    rintro ⟨f, half⟩ ⟨g, _⟩ hopen' ⟨(hfg : r.Embeds f g), rfl⟩
    rw [hopen, Except.ok.injEq, Prod.mk.injEq] at hopen'
    obtain ⟨rfl, rfl⟩ := hopen'
    have hout : Document.OutsideSelection { doc with formula := f } e := by
      intro l hl
      have hp := (ho.tidy hv.formula).mem_elements.mp he
      obtain rfl := Option.some.inj (hp.symm.trans hl)
      exact ⟨hr, hs⟩
    refine ((h.setFormula hfg).giveSelection (hv.opened ho) hout d).bind ?_
    rintro ⟨d₁, given⟩ ⟨d₂, _⟩ - ⟨(hd : r.Carries d₁ d₂), ⟨⟩⟩
    simp only [id_eq, hd.formula.endOf]
    split
    · exact .ok (hd.moveCaret _)
    · exact .ok (hd.moveCaret _)
  | none =>
    obtain ⟨f, half, hopen, -, hvalid, hready⟩ := hv.openScript_new superscript
    obtain ⟨hplant, he⟩ := h.plant (.scripts none none)
    simp only [Option.map_none, he]
    refine (hplant.formula.openScript _ superscript).bind ?_
    rintro ⟨f, half⟩ ⟨g, _⟩ hopen' ⟨(hfg : r.Embeds f g), -⟩
    rw [hopen, Except.ok.injEq, Prod.mk.injEq] at hopen'
    obtain ⟨rfl, rfl⟩ := hopen'
    exact (hplant.setFormula hfg).insert_loose hvalid
      (hready.parent _ (List.mem_singleton_self _)) .right

/-! ## Operands -/

/-- The last step of inserting around operands: the element is put in, and the caret enters it. -/
theorem placeAround (e : ElementId) (side : Direction) :
    Parallel r.Carries
      (do
        let d ← doc.place e
        match (d.formula.element e).boundary? side with
        | some l => .ok (d.moveCaret (Formula.startOf l))
        | none => .ok d)
      (do
        let d ← doc'.place (r.element e)
        match (d.formula.element (r.element e)).boundary? side with
        | some l => .ok (d.moveCaret (Formula.startOf l))
        | none => .ok d) := by
  refine (h.place e).bind ?_
  intro d₁ d₂ _ hd
  simp only [hd.formula.boundary?]
  cases (d₁.formula.element e).boundary? side with
  | none => exact .ok hd
  | some l => exact .ok (hd.moveCaret _)

theorem insertAround (kind : GreedyKind) :
    Parallel r.Carries (doc.insertAround kind) (doc'.insertAround kind) := by
  unfold Document.insertAround
  simp only [h.caret_place]
  have htokens : doc'.formula.operandTokens (r.place doc.caret.place).list = _ :=
    h.formula.operandTokens doc.caret.place.list
  have hpos : (r.place doc.caret.place).pos = doc.caret.place.pos := rfl
  simp only [htokens, hpos]
  generalize doc.caret.place = p
  split
  · exact .error _
  · generalize (if kind.takesLeft = true then _ else 0) = takeLeft
    generalize OperandToken.absorbRight _ = takeRight
    -- The operands are taken out of the list, the right one before the left one.
    refine (h.splice p.list p.pos (p.pos + takeRight) []).bind ?_
    rintro ⟨d₁, right⟩ ⟨d₂, _⟩ - ⟨(hd : r.Carries d₁ d₂), ⟨⟩⟩
    refine (hd.splice p.list (p.pos - takeLeft) p.pos []).bind ?_
    rintro ⟨d₁, left⟩ ⟨d₂, _⟩ - ⟨(hd : r.Carries d₁ d₂), ⟨⟩⟩
    have hplanted : ∃ d₃ d₄ e, r.Carries d₃ d₄ ∧
        (d₁.moveCaret ⟨p.list, p.pos - takeLeft⟩).plant kind.emptyNode = (d₃, e) ∧
        (d₂.moveCaret ⟨r.list p.list, p.pos - takeLeft⟩).plant kind.emptyNode =
          (d₄, r.element e) := by
      obtain ⟨hplant, he⟩ := (hd.moveCaret ⟨p.list, p.pos - takeLeft⟩).plant kind.emptyNode
      exact ⟨_, _, _, hplant, rfl, Prod.ext rfl he⟩
    obtain ⟨d₁, d₂, e, hd, hplant₁, hplant₂⟩ := hplanted
    simp only [Handles.place, hplant₁, hplant₂, List.isEmpty_map, hd.formula.element]
    -- Then the new element takes them in and is put in itself.
    rcases d₁.formula.element e with _ | _ | _ | _ | _ | _ | ⟨_ | exponent, _, _⟩ | _ | _
    case frac numerator denominator =>
      refine (hd.splice numerator 0 0 left).bind ?_
      rintro ⟨d₁, _⟩ ⟨d₂, _⟩ - ⟨(hd : r.Carries d₁ d₂), -⟩
      refine (hd.splice denominator 0 0 right).bind ?_
      rintro ⟨d₁, _⟩ ⟨d₂, _⟩ - ⟨(hd : r.Carries d₁ d₂), -⟩
      exact hd.placeAround e _
    case scripts.some =>
      refine (hd.splice exponent 0 0 right).bind ?_
      rintro ⟨d₁, _⟩ ⟨d₂, _⟩ - ⟨(hd : r.Carries d₁ d₂), -⟩
      refine (hd.formula.openScript e true).bind ?_
      rintro ⟨f, half⟩ ⟨g, _⟩ - ⟨(hfg : r.Embeds f g), -⟩
      exact (hd.setFormula hfg).placeAround e _
    all_goals exact hd.placeAround e _

theorem insertGreedy (hv : doc.Valid) (kind : GreedyKind) :
    Parallel r.Carries (doc.insertGreedy kind) (doc'.insertGreedy kind) := by
  unfold Document.insertGreedy
  rw [h.selecting]
  cases doc.caret.selecting with
  | false => exact h.insertAround kind
  | true =>
    obtain ⟨hplant, he⟩ := h.plant kind.emptyNode
    simp only [↓reduceIte, he]
    cases kind with
    | frac =>
      obtain ⟨hg, hgrows, hready⟩ := hv.formula.plant (filled_emptyNode .frac)
      have hvalid : (doc.plant GreedyKind.frac.emptyNode).1.Valid := hv.grows hg hgrows
      have hloose : (doc.plant GreedyKind.frac.emptyNode).1.formula.parent
          (doc.plant GreedyKind.frac.emptyNode).2 = none :=
        hready.parent _ (List.mem_singleton_self _)
      generalize doc.plant GreedyKind.frac.emptyNode = x at hplant hvalid hloose ⊢
      generalize doc'.plant GreedyKind.frac.emptyNode = y at hplant ⊢
      exact hplant.insert_loose hvalid hloose .left
    | superscript =>
      obtain ⟨f, half, hopen, hvalid, hready⟩ := hv.openScript_superscript
      have hloose : f.parent (doc.plant GreedyKind.superscript.emptyNode).2 = none :=
        hready.parent _ (List.mem_singleton_self _)
      refine ((hplant.formula.openScript _ true).map fun _ _ hx => hx.1).bind ?_
      intro f' g hf (hfg : r.Embeds f' g)
      rw [hopen] at hf
      obtain rfl : f = f' := Except.ok.inj hf
      exact (hplant.setFormula hfg).insert_loose hvalid hloose .left

/-! ## Cutting and pasting -/

theorem cut (hv : doc.Valid) :
    Parallel (fun x y => r.Carries x.1 y.1 ∧ y.2 = x.2) doc.cut doc'.cut := by
  unfold Document.cut
  rw [h.copy hv, h.selecting]
  refine (Parallel.refl doc.copy).bind ?_
  rintro text _ - rfl
  split
  · refine (h.delete hv .left).bind ?_
    rintro ⟨d₁, _⟩ ⟨d₂, _⟩ - ⟨hd, -⟩
    exact .ok ⟨hd, rfl⟩
  · exact .ok ⟨h, rfl⟩

theorem pasteNodes (hv : doc.Valid) (nodes : List Node) :
    Parallel r.Carries (doc.pasteNodes nodes) (doc'.pasteNodes nodes) := by
  unfold Document.pasteNodes
  rw [h.selecting]
  have hinsert : ∀ {d₁ d₂ : Document}, r.Carries d₁ d₂ → Parallel r.Carries
      (Document.insertElements { d₁ with formula := (d₁.formula.plantAll nodes).1 }
        d₁.caret.place.list d₁.caret.place.pos (d₁.formula.plantAll nodes).2 true)
      (Document.insertElements { d₂ with formula := (d₂.formula.plantAll nodes).1 }
        d₂.caret.place.list d₂.caret.place.pos (d₂.formula.plantAll nodes).2 true) := by
    intro d₁ d₂ hd
    obtain ⟨hplant, hes⟩ := Embeds.planted.2 nodes hd.formula
    rw [hes, hd.caret_place]
    exact (hd.setFormula hplant).insertElements _ _ _ true
  split
  · refine ((h.delete hv .left).map fun _ _ hx => hx.1).bind ?_
    intro d₁ d₂ _ hd
    exact hinsert hd
  · exact hinsert h

theorem paste (hv : doc.Valid) (text : String) :
    Parallel (Parallel r.Carries) (doc.paste text) (doc'.paste text) := by
  unfold Document.paste
  cases Tex.read text with
  | error error => exact .ok (.error error)
  | ok nodes => exact (h.pasteNodes hv nodes).map fun _ _ hd => .ok hd

end Carries

end Handles

end FormulaEditor
