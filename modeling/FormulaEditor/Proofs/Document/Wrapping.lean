import FormulaEditor.Proofs.Document.Around

/-!
# Putting an element around the selection

An element that is typed while something is selected takes the selected elements in and stands where
they stood. Scripts beside the selection may take it in instead, behind or before what their half
holds. Everything else stays in its list and in its order.
-/

namespace FormulaEditor

/-- The elements of a run. -/
def Selection.elements (s : Selection) (f : Formula) : List ElementId :=
  f.range s.list s.start s.stop

/-- A run splits its list into what is before it, the run, and what is after it. -/
theorem Selection.Valid.exists_split {s : Selection} {f : Formula} (h : s.Valid f) :
    ∃ before after, f.elements s.list = before ++ (s.elements f ++ after) ∧
      s.start = before.length ∧ s.stop = before.length + (s.elements f).length := by
  have hstart := h.start_le
  have hstop : s.stop ≤ (f.elements s.list).length := h.stop_le
  refine ⟨(f.elements s.list).take s.start, (f.elements s.list).drop s.stop, ?_, ?_, ?_⟩
  · rw [← List.append_assoc]
    exact Formula.elements_eq_range hstart
  · rw [List.length_take]
    omega
  · rw [elements, Formula.range, List.length_take, List.length_take, List.length_drop]
    omega

namespace Element

/-- The list into which an element takes a selection. -/
def receiver? : Element → Option ListId
  | frac numerator _ => some numerator
  | wrapped _ argument => some argument
  | scripts _ _ acceptor => acceptor
  | _ => none

/-- A half of scripts. -/
def half? (superscript : Bool) : Element → Option ListId
  | scripts exponent subscript _ => if superscript then exponent else subscript
  | _ => none

/-- Scripts with a half that takes the caret. -/
def withHalf (superscript : Bool) (half : ListId) : Element → Element
  | scripts exponent subscript _ =>
    if superscript then scripts (some half) subscript (some half)
    else scripts exponent (some half) (some half)
  | x => x

theorem Filled.mem_lists_of_receiver? {x : Element} {l : ListId} (hx : x.Filled)
    (h : x.receiver? = some l) : l ∈ x.lists := by
  cases x with
  | scripts exponent subscript acceptor => obtain rfl | rfl := hx.2 l h <;> simp [lists]
  | frac | wrapped => simp_all [receiver?, lists]
  | _ => cases h

/-- New scripts with a half: it is their only list, takes a selection in and takes the caret. -/
theorem withHalf_new (superscript : Bool) (half : ListId) :
    ((scripts none none none).withHalf superscript half).lists = [half] ∧
      ((scripts none none none).withHalf superscript half).receiver? = some half ∧
      ((scripts none none none).withHalf superscript half).acceptor? = some half := by
  cases superscript <;> exact ⟨rfl, rfl, rfl⟩

end Element

namespace Formula

variable {f g : Formula} {e : ElementId} {i l half : ListId} {d : Direction} {superscript : Bool}
  {before run after selection : List ElementId}

/-- Into an empty list a selection goes at the beginning. -/
theorem receivingPlace?_of_receiver? (h : (f.element e).receiver? = some i)
    (hempty : f.elements i = []) : f.receivingPlace? e d = some (startOf i) := by
  unfold receivingPlace?
  cases hx : f.element e with
  | frac | wrapped =>
    simp_all [Element.receiver?, endOf, startOf, length]
  | scripts exponent subscript acceptor =>
    simp only [hx, Element.receiver?] at h
    subst h
    cases d <;> simp [endOf, startOf, length, hempty]
  | _ =>
    rw [hx] at h
    cases h

/-- What opening a half makes of scripts: the half is the one that was there, or a new list. -/
theorem element_openScript (he : f.HasElement e)
    (h : f.openScript e superscript = .ok (g, half)) :
    g.element e = (f.element e).withHalf superscript half ∧
      ((f.element e).half? superscript = some half ∨
        (f.element e).half? superscript = none ∧ ¬f.HasList half) := by
  unfold openScript at h
  split at h
  · rename_i exponent subscript acceptor hx
    have hnew : (f.adoptList e []).1.HasElement e := by simpa [HasElement] using he
    rw [hx]
    cases superscript with
    | true =>
      cases exponent <;> obtain ⟨rfl, rfl⟩ := Prod.mk.inj (Except.ok.inj h)
      · exact ⟨by rw [element_setElement, if_pos ⟨rfl, hnew⟩]; rfl, .inr ⟨rfl, not_hasList_nextList⟩⟩
      · exact ⟨by rw [element_setElement, if_pos ⟨rfl, he⟩]; rfl, .inl rfl⟩
    | false =>
      cases subscript <;> obtain ⟨rfl, rfl⟩ := Prod.mk.inj (Except.ok.inj h)
      · exact ⟨by rw [element_setElement, if_pos ⟨rfl, hnew⟩]; rfl, .inr ⟨rfl, not_hasList_nextList⟩⟩
      · exact ⟨by rw [element_setElement, if_pos ⟨rfl, he⟩]; rfl, .inl rfl⟩
  · cases h

end Formula

/-! ## A new element -/

namespace Document

variable {doc : Document} {e : ElementId} {i a : ListId} {s : Selection} {d : Direction}
  {before run after : List ElementId}

/-- A selection is put in at the place at which an element takes it. -/
theorem acceptSelection_eq {selection : List ElementId} {p : Place} (hf : doc.formula.Tidy)
    (hsel : doc.formula.Ready selection) (he : e ∉ selection)
    (hr : ∀ l, doc.formula.parent e = some l → doc.formula.Reachable l)
    (hp : doc.formula.receivingPlace? e d = some p) (hle : p.pos ≤ doc.formula.length p.list) :
    doc.acceptSelection e selection d =
      .ok { doc with formula := (doc.formula.replaceRange p.list p.pos p.pos selection).1 } := by
  unfold Document.acceptSelection
  simp only [hf.isInside_eq_false hsel doc.formula.listSlots.size he hr, Bool.false_eq_true,
    ↓reduceIte, hp]
  rw [splice_eq (Nat.le_refl _) hle]
  rfl

section Inserting

variable {f : Formula} (h : doc.Valid) (hs : doc.caret.selecting = true)
  (hsel : doc.caret.selected? doc.formula = .ok (some s)) (hl : f.HasList s.list)
  (hamends : f.Amends doc.formula s.list e (before ++ (run ++ after)))
  (hstart : s.start = before.length) (hstop : s.stop = before.length + run.length)
  (he : doc.formula.Ready [e]) (hi : (doc.formula.element e).receiver? = some i)
  (hempty : doc.formula.elements i = [])

include h hs hsel hl hamends hstart hstop he hi hempty

/-- A new element takes the selection into its empty list. -/
theorem Valid.giveSelection_selected :
    ∃ g, doc.giveSelection e d = .ok (⟨g, .ofPlace ⟨s.list, before.length⟩, doc.convertsWords⟩,
        some run.length) ∧
      f.Amends g s.list e (before ++ ([] ++ after)) ∧ g.Ready [e] ∧
      g.element e = doc.formula.element e ∧ g.elements i = run ∧
      ∀ k ∈ doc.formula.listsOf e, k ≠ i → g.elements k = doc.formula.elements k := by
  have hmem : e ∈ [e] := List.mem_singleton_self e
  have hl₀ := hamends.hasList s.list hl
  have hil : i ∈ doc.formula.listsOf e := (he.filled e hmem).mem_lists_of_receiver? hi
  -- First the selection is taken out.
  obtain ⟨s', hs', -, hdelete⟩ := h.delete_selection hs d
  obtain rfl : s = s' := Option.some.inj (Except.ok.inj (hsel.symm.trans hs'))
  rw [hstart, hstop, Formula.range_of_split hamends.list] at hdelete
  have h₁ := hamends.exchange hl₀ .nil
  obtain ⟨hrun, hkept⟩ := h.formula.ready_takeOut hl₀ hamends.list
  have he₁ := hkept [e] he
  obtain ⟨g₁, hg₁⟩ : ∃ g, g = (doc.formula.replaceRange s.list before.length
    (before.length + run.length) []).1 := ⟨_, rfl⟩
  rw [← hg₁] at hdelete h₁ hrun he₁
  have helement₁ : g₁.element e = doc.formula.element e := hg₁ ▸ Formula.element_replaceRange
  have hlists₁ : g₁.listsOf e = doc.formula.listsOf e := congrArg Element.lists helement₁
  have hother₁ : ∀ k ∈ doc.formula.listsOf e, g₁.elements k = doc.formula.elements k := by
    intro k hk
    have hne : s.list ≠ k := fun hc => hamends.new k hk (hc ▸ hl)
    rw [hg₁, Formula.elements_replaceRange hl₀, if_neg hne]
  have hempty₁ : g₁.elements i = [] := (hother₁ i hil).trans hempty
  -- Then the element takes it in.
  have hout : e ∉ run := fun hc => he.not_mem_elements h.formula hmem
    (l := s.list) (by rw [hamends.list]; simp [hc])
  have haccept : Document.acceptSelection
      ⟨g₁, .ofPlace ⟨s.list, before.length⟩, doc.convertsWords⟩ e run d = _ :=
    acceptSelection_eq (d := d) h₁.tidy hrun hout (by simp [he₁.parent e hmem])
      (Formula.receivingPlace?_of_receiver? ((congrArg _ helement₁).trans hi) hempty₁)
      (Nat.zero_le _)
  obtain ⟨h₂, hrun₂, hother₂, hready₂⟩ := h₁.takeIn hl (hlists₁ ▸ hil) hempty₁ hrun
  refine ⟨(g₁.replaceRange i 0 0 run).1, ?_, h₂, hready₂ [e] he₁ (by simpa using hout),
    Formula.element_replaceRange.trans helement₁, hrun₂,
    fun k hk hki => (hother₂ k hki).trans (hother₁ k hk)⟩
  unfold Document.giveSelection
  simp only [hs, ↓reduceIte, hdelete, bind, Except.bind, haccept]
  rfl

/-- The element goes in where the selection stood, and the caret goes to the end of the list that
takes it. -/
theorem Valid.insert_selected (hw : doc.convertsWords = false)
    (ha : (doc.formula.element e).acceptor? = some a) :
    ∃ g, doc.insert e d = .ok { doc with formula := g, caret := .ofPlace (g.endOf a) } ∧
      f.Amends g s.list e (before ++ ([e] ++ after)) ∧ g.element e = doc.formula.element e ∧
      g.elements i = run ∧ ∀ k ∈ g.listsOf e, k ≠ i → g.elements k = doc.formula.elements k := by
  have hmem : e ∈ [e] := List.mem_singleton_self e
  have hil : i ∈ doc.formula.listsOf e := (he.filled e hmem).mem_lists_of_receiver? hi
  have hne : ∀ k ∈ doc.formula.listsOf e, s.list ≠ k := fun k hk hc =>
    hamends.new k hk (hc ▸ hl)
  obtain ⟨g, hgive, hg, he', helement, hrun, hothers⟩ :=
    h.giveSelection_selected (d := d) hs hsel hl hamends hstart hstop he hi hempty
  have hl' := hg.hasList s.list hl
  have hle : before.length ≤ g.length s.list := by
    rw [Formula.length, hg.list, List.length_append]
    omega
  have hplace : Document.place ⟨g, .ofPlace ⟨s.list, before.length⟩, doc.convertsWords⟩ e = _ :=
    place_of_convertsWords hw (he'.parent e hmem) hle rfl
  have hacceptor : (g.element e).acceptor? = some a := (congrArg _ helement).trans ha
  refine ⟨(g.replaceRange s.list before.length before.length [e]).1, ?_, hg.exchange hl' he',
    Formula.element_replaceRange.trans helement, ?_, fun k hk hki => ?_⟩
  · unfold Document.insert
    simp only [hgive, bind, Except.bind, hplace]
    simp only [hacceptor]
    rfl
  · rw [Formula.elements_replaceRange hl', if_neg (hne i hil), hrun]
  · have hk' : k ∈ doc.formula.listsOf e := by
      rwa [Formula.listsOf_replaceRange, Formula.listsOf, helement] at hk
    rw [Formula.elements_replaceRange hl', if_neg (hne k hk'), hothers k hk' hki]

end Inserting

/-- New scripts with a half that is opened are the one change so far, and nothing is in the half. -/
theorem Valid.openScript_amends (h : doc.Valid) {l : ListId} (hr : doc.formula.Reachable l)
    (superscript : Bool) : ∃ g half,
      (doc.formula.allocElement (.scripts none none none)).1.openScript doc.formula.nextElement
        superscript = .ok (g, half) ∧
      doc.formula.Amends g l doc.formula.nextElement (doc.formula.elements l) ∧
      doc.formula.SamePlaces g ∧ { doc with formula := g }.Valid ∧
      g.Ready [doc.formula.nextElement] ∧
      g.element doc.formula.nextElement =
        (Element.scripts none none none).withHalf superscript half ∧ g.elements half = [] := by
  obtain ⟨g, half, hopen, ho, hvalid, he⟩ := h.openScript_new superscript
  have hnew : (doc.formula.allocElement (.scripts none none none)).1.element
      doc.formula.nextElement = .scripts none none none := by
    rw [Formula.element_allocElement, if_pos rfl]
  have hhas : (doc.formula.allocElement (.scripts none none none)).1.HasElement
      doc.formula.nextElement := by
    simp [Formula.HasElement, Formula.nextElement]
  change (doc.formula.allocElement _).1.openScript doc.formula.nextElement superscript = _ at hopen
  change (doc.formula.allocElement _).1.Opened doc.formula.nextElement g half at ho
  change g.Ready [doc.formula.nextElement] at he
  obtain ⟨helement, hhalf⟩ := Formula.element_openScript hhas hopen
  rw [hnew] at helement hhalf
  obtain ⟨-, hfresh⟩ := hhalf.resolve_left (by cases superscript <;> simp [Element.half?])
  have hlists := (Element.withHalf_new superscript half).1
  rw [← helement] at hlists
  have hplaces := (Formula.SamePlaces.allocElement doc.formula (.scripts none none none)).trans
    ho.toSamePlaces
  refine ⟨g, half, hopen, ?_, hplaces, hvalid, he, helement, ?_⟩
  · refine (h.formula.amends_allocElement hr rfl).opened ho fun i hi => .inr ?_
    obtain rfl : i = half := List.mem_singleton.mp (hlists ▸ hi)
    exact hfresh
  · rw [hplaces.elements]
    exact List.eq_nil_iff_forall_not_mem.mpr fun x hx => hfresh (Formula.hasList_of_mem hx)

section Selected

variable (h : doc.Valid) (hw : doc.convertsWords = false) (hs : doc.caret.selecting = true)
  (hsel : doc.caret.selected? doc.formula = .ok (some s)) (hr : doc.formula.Reachable s.list)
  (hsplit : doc.formula.elements s.list = before ++ (run ++ after))
  (hstart : s.start = before.length) (hstop : s.stop = before.length + run.length)

include h hw hs hsel hr hsplit hstart hstop

/-- A node without content takes the selection in. -/
theorem Valid.insertNode_selected {n : Node} {k : Nat} (hn : n.lists = List.replicate k [])
    (hfilled : n.Filled) (d : Direction) :
    ∃ ls, ls.length = k ∧ ∀ i a, (n.element ls).receiver? = some i →
      (n.element ls).acceptor? = some a → ∃ g,
        doc.insertNode n d = .ok { doc with formula := g, caret := .ofPlace (g.endOf a) } ∧
        doc.formula.Amends g s.list doc.formula.nextElement
          (before ++ ([doc.formula.nextElement] ++ after)) ∧
        g.element doc.formula.nextElement = n.element ls ∧ g.elements i = run ∧
        ∀ k ∈ g.listsOf doc.formula.nextElement, k ≠ i → g.elements k = [] := by
  have hf := h.formula
  have hl := hf.hasList_of_reachable hr
  have hamends := hsplit ▸ hf.amends hr Formula.not_hasElement_nextElement
  obtain ⟨g, ls, hplant, hls, helement, hamends', he, hempty⟩ :=
    hamends.plant_beside (n := n) (k := k) rfl hl .nil hn hfilled
  obtain ⟨-, hgrows, -⟩ := hf.plant (Node.everyNode_filled hfilled fun ns hns =>
    List.eq_of_mem_replicate (hn ▸ hns))
  have hplaces := Formula.samePlaces_plant (f := doc.formula) hn
  rw [hplant] at hgrows hplaces
  refine ⟨ls, hls, fun i a hi ha => ?_⟩
  have hlists : g.listsOf doc.formula.nextElement = (n.element ls).lists :=
    congrArg Element.lists helement
  have hil : i ∈ g.listsOf doc.formula.nextElement := by
    rw [hlists]
    exact Element.Filled.mem_lists_of_receiver?
      (Node.filled_element hfilled (by simp [hn, hls])) hi
  have hvalid := h.grows hamends'.tidy hgrows
  obtain ⟨g', hinsert, hg', helement', hrun, hothers⟩ := hvalid.insert_selected (d := d) hs
    (by rw [← hsel]; exact h.caret.selected?_congr hf hplaces) hl hamends' hstart hstop he
    (helement ▸ hi) (hempty i hil) (by exact hw) (helement ▸ ha)
  refine ⟨g', ?_, hg', helement'.trans helement, hrun, fun k hk hki => ?_⟩
  · unfold Document.insertNode Document.plant
    rw [hplant]
    exact hinsert
  · rw [hothers k hk hki]
    refine hempty k ?_
    rwa [Formula.listsOf, helement'] at hk

/-- New scripts take the selection into the half that is opened. -/
theorem Valid.insertScript_selected (hnone : doc.reusableScripts? (some s) = none)
    (superscript : Bool) :
    ∃ g half, doc.insertScript superscript =
        .ok { doc with formula := g, caret := .ofPlace (g.endOf half) } ∧
      doc.formula.Amends g s.list doc.formula.nextElement
        (before ++ ([doc.formula.nextElement] ++ after)) ∧
      g.element doc.formula.nextElement =
        (Element.scripts none none none).withHalf superscript half ∧ g.elements half = run := by
  have hf := h.formula
  have hl := hf.hasList_of_reachable hr
  obtain ⟨g, half, hopen, hamends, hplaces, hvalid, he, helement, hempty⟩ :=
    h.openScript_amends hr superscript
  obtain ⟨-, hreceiver, hacceptor⟩ := Element.withHalf_new superscript half
  rw [← helement] at hreceiver hacceptor
  obtain ⟨g', hinsert, hg', helement', hrun, -⟩ := hvalid.insert_selected (d := .right) hs
    (by rw [← hsel]; exact h.caret.selected?_congr hf hplaces) hl (hsplit ▸ hamends) hstart hstop he
    hreceiver hempty (by exact hw) hacceptor
  refine ⟨g', half, ?_, hg', helement'.trans helement, hrun⟩
  unfold Document.insertScript
  simp only [hsel, bind, Except.bind, hnone, Document.plant, Formula.plant,
    Formula.allocElement_snd, hopen]
  exact hinsert

end Selected

end Document

end FormulaEditor
