import FormulaEditor.Proofs.Document.Opening
import FormulaEditor.Proofs.Operand

/-!
# Inserting keeps a document valid

A new element takes in the selection, goes in at the caret and takes the caret in. None of these
steps is refused: what is handed over stands nowhere, so it cannot hold the element that takes it,
and the element itself is new.
-/

namespace FormulaEditor

theorem Element.Filled.mem_lists_of_acceptor? {x : Element} {l : ListId} (hx : x.Filled)
    (h : x.acceptor? = some l) : l ∈ x.lists := by
  cases x with
  | scripts exponent subscript acceptor => obtain rfl | rfl := hx.2 l h <;> simp [Element.lists]
  | frac | wrapped => simp_all [Element.acceptor?, Element.lists]
  | _ => cases h

namespace Formula

variable {f g : Formula} {e : ElementId} {l : ListId} {es selection : List ElementId} {p : Place}
  {d : Direction}

/-! ## Handing a selection over -/

/-- An element in a list of the formula, or in none, lies inside nothing that stands nowhere. -/
theorem Tidy.isInside_eq_false (hf : f.Tidy) (hsel : f.Ready selection) (depth : Nat)
    (he : e ∉ selection) (hr : ∀ l, f.parent e = some l → f.Reachable l) :
    f.isInside selection depth e = false := by
  induction depth generalizing e with
  | zero => simpa [isInside] using he
  | succ depth ih =>
    rw [isInside]
    cases hh : f.holder? e with
    | none => simpa using he
    | some x =>
      obtain ⟨l, hl, ho⟩ := Option.bind_eq_some_iff.mp hh
      obtain ⟨outer, hx, hro⟩ := hf.toSound.outer_of_reachable (hr l hl) ho
      have hmem : x ∉ selection := fun hc => by simp [hsel.parent x hc] at hx
      have := ih hmem fun l' hl' => by rwa [← Option.some.inj (hx.symm.trans hl')]
      simpa [this] using he

/-- An element takes a selection in at a place of one of its lists. -/
theorem receivingPlace?_spec (hfill : (f.element e).Filled)
    (h : f.receivingPlace? e d = some p) : p.list ∈ f.listsOf e ∧ p.pos ≤ f.length p.list := by
  unfold receivingPlace? at h
  unfold listsOf
  split at h
  · rename_i hx
    cases h
    simp [hx, Element.lists, endOf]
  · rename_i hx
    cases h
    simp [hx, Element.lists, endOf]
  · rename_i exponent subscript acceptor hx
    rw [hx] at hfill ⊢
    obtain ⟨-, hacc⟩ := hfill
    cases h
    constructor
    · have := hacc acceptor rfl
      split <;> obtain rfl | rfl := this <;> simp [Element.lists, startOf, endOf]
    · split <;> simp [startOf, endOf]
  · cases h

/-- Scripts take a selection in at an end of their acceptor. -/
theorem receivingPlace?_of_acceptor {exponent subscript : Option ListId}
    (hx : f.element e = .scripts exponent subscript (some half)) :
    f.receivingPlace? e d = some (if d = .left then startOf half else f.endOf half) := by
  unfold receivingPlace?
  rw [hx]

/-- The second formula is the first one with a selection put in at some place, or nowhere. -/
inductive Takes (f : Formula) (selection : List ElementId) : Formula → Prop
  | nowhere : Takes f selection f
  | within {l : ListId} {pos : Nat} (hl : f.HasList l) (hpos : pos ≤ f.length l) :
    Takes f selection (f.replaceRange l pos pos selection).1

namespace Takes

variable (h : f.Takes selection g)

include h

theorem tidy (hf : f.Tidy) (hsel : f.Ready selection) : g.Tidy := by
  cases h with
  | nowhere => exact hf
  | within hl hpos => exact hf.replaceRange hl (Nat.le_refl _) hsel

theorem keeps : f.Keeps g := by
  cases h with
  | nowhere => exact .refl f
  | within hl hpos => exact keeps_insert hl

theorem element (e : ElementId) : g.element e = f.element e := by
  cases h with
  | nowhere => rfl
  | within hl hpos => exact element_replaceRange

theorem isPlace (hp : f.IsPlace p) : g.IsPlace p where
  reachable := h.keeps.reachable hp.reachable
  le_length := by
    cases h with
    | nowhere => exact hp.le_length
    | within hl hpos => exact Nat.le_trans hp.le_length (length_le_insert hl hpos)

theorem ready (hf : f.Tidy) (hsel : f.Ready selection) (hes : f.Ready es)
    (hd : ∀ e ∈ es, e ∉ selection) : g.Ready es := by
  cases h with
  | nowhere => exact hes
  | within hl hpos => exact hf.ready_replaceRange hl _ _ hsel hes hd

end Takes

end Formula

namespace Document

variable {doc : Document} {e : ElementId} {selection : List ElementId} {d : Direction}

/-- Handing a selection to an element puts it into the list that takes it in, if there is one. -/
theorem acceptSelection_spec (hf : doc.formula.Tidy) (hsel : doc.formula.Ready selection)
    (he : e ∉ selection) (hr : ∀ l, doc.formula.parent e = some l → doc.formula.Reachable l)
    (hfill : (doc.formula.element e).Filled) :
    ∃ g, doc.acceptSelection e selection d = .ok { doc with formula := g } ∧
      doc.formula.Takes selection g ∧
      ∀ p, doc.formula.receivingPlace? e d = some p → selection.length ≤ g.length p.list := by
  unfold acceptSelection
  simp only [hf.isInside_eq_false hsel _ he hr, Bool.false_eq_true, ↓reduceIte]
  cases hp : doc.formula.receivingPlace? e d with
  | none => exact ⟨doc.formula, rfl, .nowhere, by simp⟩
  | some p =>
    obtain ⟨hmem, hle⟩ := Formula.receivingPlace?_spec hfill hp
    have hl := hf.allocated e p.list hmem
    refine ⟨_, ?_, .within hl hle, ?_⟩
    · simp only [splice_eq (Nat.le_refl p.pos) hle]
      rfl
    · rintro q hq
      obtain rfl := Option.some.inj hq
      rw [Formula.length_replaceRange hl (Nat.le_refl _) hle]
      omega

/-- A detached element takes the selection in, and stays ready to be put in itself. -/
theorem Valid.giveSelection (h : doc.Valid) (he : doc.formula.Ready [e]) (d : Direction) :
    Succeeds (doc.giveSelection e d) fun r => r.1.Resting ∧ r.1.formula.Ready [e] := by
  unfold Document.giveSelection
  cases hs : doc.caret.selecting with
  | false => exact .ok ⟨⟨h, hs⟩, he⟩
  | true =>
    obtain ⟨s, -, hv, hdel⟩ := h.delete_selection hs d
    have hf := h.formula
    have hl := hf.hasList_of_reachable hv.reachable
    have hrest := h.remove hv
    have hsel := hf.ready_range hl hv.start_le .nil
    have he' := hf.ready_replaceRange hl s.start s.stop .nil he (by simp)
    have hmem : e ∉ doc.formula.range s.list s.start s.stop := fun hc =>
      he.not_mem_elements hf (List.mem_singleton_self e) (Formula.mem_elements_of_mem_range hc)
    obtain ⟨g, hg, htakes, -⟩ := acceptSelection_spec (d := d) hrest.formula hsel hmem
      (by simp [he'.parent e (List.mem_singleton_self e)])
      (he'.filled e (List.mem_singleton_self e))
    simp only [↓reduceIte, hdel, bind, Except.bind]
    rw [hg]
    refine .ok ⟨hrest.setFormula (htakes.tidy hrest.formula hsel)
      (htakes.isPlace hrest.caret.place), htakes.ready hrest.formula hsel he' ?_⟩
    simpa using hmem

/-! ## Putting an element in -/

/-- Putting a ready element in at the caret succeeds, and its lists become part of the formula. -/
theorem Resting.place (h : doc.Resting) (he : doc.formula.Ready [e]) :
    Succeeds (doc.place e) fun doc' =>
      doc'.Resting ∧ ∀ l ∈ doc'.formula.listsOf e, doc'.formula.Reachable l := by
  have hf := h.formula
  have hplace := h.caret.place
  have hl := hplace.hasList hf
  have hmem : e ∈ [e] := List.mem_singleton_self e
  unfold Document.place
  simp only [he.parent e hmem, Option.isSome_none, Bool.false_eq_true, ↓reduceIte,
    splice_eq (Nat.le_refl _) hplace.le_length]
  refine Succeeds.bind (Succeeds.ok rfl) ?_
  rintro _ rfl
  obtain ⟨g, hg⟩ : ∃ g, g = (doc.formula.replaceRange doc.caret.place.list doc.caret.place.pos
    doc.caret.place.pos [e]).1 := ⟨_, rfl⟩
  have hreach : g.Reachable doc.caret.place.list := hg ▸ hf.reachable_replaceRange hplace.reachable
  have hin : e ∈ g.elements doc.caret.place.list := hg ▸ Formula.mem_replaceRange hl _ _ hmem
  have helement : g.element e = doc.formula.element e := hg ▸ Formula.element_replaceRange
  have hrest : (Document.moveCaret { doc with formula := g }
      ⟨doc.caret.place.list, doc.caret.place.pos + 1⟩).Resting :=
    hg ▸ h.edit (hf.replaceRange hl (Nat.le_refl _) he) (hf.isPlace_replaceRange hplace.reachable
      (Nat.le_refl _) hplace.le_length [e] (Nat.le_refl _))
  simp only [← hg]
  -- Whether or not words are read again, the element is there in the end, unless it is text.
  have hthen : ∀ (doc' : Document) (entered : Except Misuse Document), doc'.Resting →
      g.Keeps doc'.formula → doc'.formula.element e = g.element e →
      (∀ acceptor, (doc'.formula.element e).acceptor? = some acceptor →
        entered = .ok (doc'.moveCaret (doc'.formula.endOf acceptor))) →
      ((doc'.formula.element e).acceptor? = none → entered = .ok doc') →
      Succeeds entered fun doc' =>
        doc'.Resting ∧ ∀ l ∈ doc'.formula.listsOf e, doc'.formula.Reachable l := by
    intro doc' entered hrest hkeeps heq hsome hnone
    have hlists : ∀ l ∈ doc'.formula.listsOf e, doc'.formula.Reachable l := fun i hi => by
      rw [Formula.listsOf, heq] at hi
      exact hkeeps.reachable (hreach.inside hin hi)
    cases hacc : (doc'.formula.element e).acceptor? with
    | some acceptor =>
      have hfill : (doc'.formula.element e).Filled := by
        rw [heq, helement]
        exact he.filled e hmem
      have hlist := hlists acceptor (hfill.mem_lists_of_acceptor? hacc)
      rw [hsome acceptor hacc]
      exact .ok ⟨hrest.moveCaret (Formula.isPlace_endOf hlist), hlists⟩
    | none =>
      rw [hnone hacc]
      exact .ok ⟨hrest, hlists⟩
  split
  · refine (hrest.convertWords rfl).bind ?_
    rintro doc' ⟨hrest', hkeeps, heq⟩
    exact hthen doc' _ hrest' hkeeps (heq e (hrest.formula.hasElement hin))
      (fun _ hacc => by rw [hacc]) fun hacc => by rw [hacc]
  · refine Succeeds.bind (Succeeds.ok rfl) ?_
    rintro _ rfl
    exact hthen _ _ hrest (.refl g) rfl (fun _ hacc => by rw [hacc]) fun hacc => by rw [hacc]

/-- Inserting a ready element succeeds, and leaves nothing selected. -/
theorem Valid.insert (h : doc.Valid) (he : doc.formula.Ready [e]) (d : Direction) :
    Succeeds (doc.insert e d) Resting :=
  (h.giveSelection he d).bind fun _ ⟨hrest, he⟩ => (hrest.place he).mono fun _ h => h.1

/-- A formula that has grown carries the caret. -/
theorem Valid.grows (h : doc.Valid) {g : Formula} (hg : g.Tidy) (hgrows : doc.formula.Grows g) :
    { doc with formula := g }.Valid := by
  have hplace : ∀ p, doc.formula.IsPlace p → g.IsPlace p := fun p hp => by
    refine ⟨hgrows.keeps.reachable hp.reachable, ?_⟩
    rw [Formula.length, hgrows.elements (hp.hasList h.formula)]
    exact hp.le_length
  exact ⟨hg, hplace _ h.caret.place, fun p hp => hplace p (h.caret.anchor p hp),
    h.caret.selecting⟩

/-- Inserting a node succeeds, provided that scripts in it have a half. -/
theorem Valid.insertNode (h : doc.Valid) {n : Node} (hn : Node.EveryNode Node.Filled [n])
    (d : Direction) : Succeeds (doc.insertNode n d) Resting := by
  obtain ⟨hg, hgrows, hready⟩ := h.formula.plant hn
  exact (h.grows hg hgrows).insert hready d

theorem Resting.insertNodes (h : doc.Resting) {ns : List Node}
    (hns : Node.EveryNode Node.Filled ns) (d : Direction) :
    Succeeds (doc.insertNodes ns d) Resting := by
  induction ns generalizing doc with
  | nil => exact .ok h
  | cons n ns ih =>
    obtain ⟨hn, hns⟩ := Node.everyNode_cons.mp hns
    exact (h.toValid.insertNode (Node.everyNode_singleton.mpr hn) d).bind fun doc' h' => ih h' hns

/-! ## Scripts -/

/-- A document carries its caret into the formula in which a half of scripts is opened. -/
theorem Valid.opened (h : doc.Valid) {g : Formula} {half : ListId}
    (ho : doc.formula.Opened e g half) : { doc with formula := g }.Valid :=
  ⟨ho.tidy h.formula, ho.isPlace h.caret.place, fun p hp => ho.isPlace (h.caret.anchor p hp),
    h.caret.selecting⟩

theorem eq_some_of_orElse {α : Type} {a : α} {x y : Option α} (h : (x <|> y) = some a) :
    x = some a ∨ y = some a := by
  cases x with
  | none => exact .inr h
  | some b => exact .inl h

/-- Scripts that are opened again stand in the list of the caret, beside the caret or the anchor and
outside the selection. -/
theorem reusableScripts?_spec {selected : Option Selection}
    (h : doc.reusableScripts? selected = some (e, d)) :
    ∃ i, (doc.formula.elements doc.caret.place.list)[i]? = some e ∧
      (doc.formula.kind e).isScripts ∧
      (∀ s, selected = some s → s.list = doc.caret.place.list ∧ ¬(s.start ≤ i ∧ i < s.stop)) ∧
      ∃ p, (p = doc.caret.place ∨ doc.caret.anchor = some p ∧ p.list = doc.caret.place.list) ∧
        (d = .right ∧ p.pos = i + 1 ∨ d = .left ∧ p.pos = i) := by
  unfold reusableScripts? at h
  extract_lets f here usable scriptsAt? beside anchor at h
  have hat : ∀ {i e}, scriptsAt? i = some e → (f.elements here.list)[i]? = some e ∧
      (f.kind e).isScripts ∧
      ∀ s, selected = some s → s.list = here.list ∧ ¬(s.start ≤ i ∧ i < s.stop) := by
    intro i e hi
    obtain ⟨e', he', hif⟩ := Option.bind_eq_some_iff.mp hi
    split at hif
    · rename_i hc
      obtain rfl := Option.some.inj hif
      obtain ⟨hu, hk⟩ := Bool.and_eq_true_iff.mp hc
      refine ⟨he', hk, ?_⟩
      rintro s rfl
      obtain ⟨hl, hi⟩ := Bool.and_eq_true_iff.mp hu
      simp only [Bool.not_eq_true', Bool.and_eq_false_iff, decide_eq_false_iff_not] at hi
      exact ⟨of_decide_eq_true hl, by omega⟩
    · cases hif
  have hbeside : ∀ {pos}, beside pos = some (e, d) →
      ∃ i, scriptsAt? i = some e ∧ (d = .right ∧ pos = i + 1 ∨ d = .left ∧ pos = i) := by
    intro pos hb
    obtain hb | hb := eq_some_of_orElse hb
    · obtain ⟨e', he', heq⟩ := Option.map_eq_some_iff.mp hb
      cases heq
      split at he'
      · cases he'
      · exact ⟨pos - 1, he', .inl ⟨rfl, by omega⟩⟩
    · obtain ⟨e', he', heq⟩ := Option.map_eq_some_iff.mp hb
      cases heq
      exact ⟨pos, he', .inr ⟨rfl, rfl⟩⟩
  have hex : ∃ p, (p = here ∨ doc.caret.anchor = some p ∧ p.list = here.list) ∧
      beside p.pos = some (e, d) := by
    obtain hb | hb := eq_some_of_orElse h
    · exact ⟨here, .inl rfl, hb⟩
    · obtain ⟨p, hp, hb⟩ := Option.bind_eq_some_iff.mp hb
      obtain ⟨hp, hlist⟩ := Option.filter_eq_some_iff.mp hp
      exact ⟨p, .inr ⟨hp, of_decide_eq_true hlist⟩, hb⟩
  obtain ⟨p, hp, hb⟩ := hex
  obtain ⟨i, hi, hd⟩ := hbeside hb
  obtain ⟨hget, hk, hout⟩ := hat hi
  exact ⟨i, hget, hk, hout, p, hp, hd⟩

theorem isScripts_iff {f : Formula} : (f.kind e).isScripts ↔
    ∃ exponent subscript acceptor, f.element e = .scripts exponent subscript acceptor := by
  unfold Formula.kind
  cases f.element e <;> simp [Element.kind, Kind.isScripts]

/-- A half of new scripts can be opened, which are then ready to be put in. -/
theorem Valid.openScript_new (h : doc.Valid) (superscript : Bool) :
    ∃ g half, (doc.plant (.scripts none none)).1.formula.openScript
        (doc.plant (.scripts none none)).2 superscript = .ok (g, half) ∧
      (doc.plant (.scripts none none)).1.formula.Opened (doc.plant (.scripts none none)).2 g half ∧
      { doc with formula := g }.Valid ∧ g.Ready [(doc.plant (.scripts none none)).2] := by
  have hf := h.formula
  have hx : (Element.scripts none none none).lists = [] := rfl
  have hgrow := hf.toSound.growing (by simp) hx
  have hg : (doc.formula.allocElement (.scripts none none none)).1.Tidy :=
    ⟨hf.toSound.allocElement hx, hf.filled.allocElement⟩
  have helement : (doc.formula.allocElement (.scripts none none none)).1.element
      doc.formula.nextElement = .scripts none none none := by
    rw [Formula.element_allocElement, if_pos rfl]
  have hw : (doc.formula.allocElement (.scripts none none none)).1.Whole
      doc.formula.nextElement := by
    constructor <;> simp [Formula.listsOf, helement, Element.lists]
  obtain ⟨g, half, hopen, ho⟩ :=
    Formula.openScript_spec hg hgrow.hasElement hw helement superscript
  simp only [plant, Formula.plant, Formula.allocElement_snd]
  exact ⟨g, half, hopen, ho, (h.grows hg hgrow.grows).opened ho,
    ho.ready hgrow.hasElement hgrow.parent⟩

/-- New scripts go in like any element. -/
theorem Valid.insertNewScript (h : doc.Valid) (superscript : Bool) :
    Succeeds (do
      let (doc, e) := doc.plant (.scripts none none)
      let (formula, _) ← doc.formula.openScript e superscript
      Document.insert { doc with formula } e .right) Resting := by
  obtain ⟨g, half, hopen, -, hvalid, hready⟩ := h.openScript_new superscript
  simp only [hopen]
  exact hvalid.insert hready .right

/-- Scripts beside the selection take it in, and stay in the list of the caret. -/
theorem Valid.giveSelection_beside (h : doc.Valid) {l half : ListId} (d : Direction)
    (hr : doc.formula.Reachable l) (he : e ∈ doc.formula.elements l)
    (hx : ∃ exponent subscript, doc.formula.element e = .scripts exponent subscript (some half))
    (hs : ∀ s, doc.caret.selected? doc.formula = .ok (some s) →
      s.list = l ∧ e ∉ doc.formula.range s.list s.start s.stop) :
    Succeeds (doc.giveSelection e d) fun r => r.1.Resting ∧
      (∀ i ∈ doc.formula.listsOf e, r.1.formula.Reachable i) ∧
      r.2.getD 0 ≤ r.1.formula.length half := by
  unfold Document.giveSelection
  cases hsel : doc.caret.selecting with
  | false => exact .ok ⟨⟨h, hsel⟩, fun i hi => hr.inside he hi, Nat.zero_le _⟩
  | true =>
    obtain ⟨s, hsome, hv, hdel⟩ := h.delete_selection hsel d
    obtain ⟨rfl, hmem⟩ := hs s hsome
    have hf := h.formula
    have hl := hf.hasList_of_reachable hr
    have hrest := h.remove hv
    have hready := hf.ready_range hl hv.start_le .nil
    simp only [↓reduceIte, hdel, bind, Except.bind]
    generalize hsel : doc.formula.range s.list s.start s.stop = selection at hmem hready
    obtain ⟨g, hg⟩ : ∃ g, g = (doc.formula.replaceRange s.list s.start s.stop []).1 := ⟨_, rfl⟩
    simp only [← hg] at hrest hready ⊢
    have helement : g.element e = doc.formula.element e := hg ▸ Formula.element_replaceRange
    have hreach : g.Reachable s.list := hg ▸ hf.reachable_replaceRange hr
    have hin : e ∈ g.elements s.list := by
      rw [hg, Formula.elements_replaceRange hl, if_pos rfl]
      exact (Formula.mem_range_or hv.start_le he []).resolve_left (hsel ▸ hmem)
    have hparent := hrest.formula.mem_elements.mp hin
    have hfill : (g.element e).Filled := hrest.formula.filled e s.list hparent
    obtain ⟨g', haccept, htakes, hlen⟩ := acceptSelection_spec (d := d) hrest.formula hready hmem
      (fun l' hl' => by rwa [← Option.some.inj (hparent.symm.trans hl')]) hfill
    rw [haccept]
    refine .ok ⟨hrest.setFormula (htakes.tidy hrest.formula hready)
      (htakes.isPlace hrest.caret.place), fun i hi => ?_, ?_⟩
    · refine htakes.keeps.reachable (hreach.inside hin ?_)
      rwa [Formula.listsOf, helement]
    · obtain ⟨exponent, subscript, hx⟩ := hx
      have := hlen _ (Formula.receivingPlace?_of_acceptor (helement.trans hx))
      split at this <;> exact this

/-- Scripts at the caret are opened again in its list, and lie outside of what is selected. -/
theorem Valid.openScript_beside (h : doc.Valid) {selected : Option Selection}
    (hselected : doc.caret.selected? doc.formula = .ok selected)
    (hreuse : doc.reusableScripts? selected = some (e, d)) (superscript : Bool) :
    ∃ g half, doc.formula.openScript e superscript = .ok (g, half) ∧ doc.formula.Opened e g half ∧
      e ∈ g.elements doc.caret.place.list ∧
      ∀ s, doc.caret.selected? g = .ok (some s) →
        s.list = doc.caret.place.list ∧ e ∉ g.range s.list s.start s.stop := by
  obtain ⟨i, hi, hk, hout, -⟩ := reusableScripts?_spec hreuse
  have hf := h.formula
  have he := List.mem_of_getElem? hi
  have hp := hf.mem_elements.mp he
  obtain ⟨exponent, subscript, acceptor, hx⟩ := isScripts_iff.mp hk
  obtain ⟨g, half, hopen, ho⟩ :=
    Formula.openScript_spec hf (hf.hasElement he) (hf.whole e _ hp) hx superscript
  refine ⟨g, half, hopen, ho, by rwa [ho.elements], fun s hs => ?_⟩
  -- The selection is the one that was looked at before the half was opened.
  rw [h.caret.selected?_congr hf ho.toSamePlaces, hselected, Except.ok.injEq] at hs
  obtain ⟨hl, hnot⟩ := hout s hs
  refine ⟨hl, fun hc => ?_⟩
  obtain ⟨j, hj, hj', hget⟩ := Formula.exists_of_mem_range hc
  rw [ho.elements, hl] at hget
  have hij : i = j := ((hf.link e _ i).mp hi).2.symm.trans ((hf.link e _ j).mp hget).2
  exact hnot ⟨hij ▸ hj, hij ▸ hj'⟩

/-- Opening an exponent or a subscript at the caret succeeds. -/
theorem Valid.insertScript (h : doc.Valid) (superscript : Bool) :
    Succeeds (doc.insertScript superscript) Resting := by
  unfold Document.insertScript
  have hsel : Succeeds (doc.caret.selected? doc.formula) fun selected =>
      doc.caret.selected? doc.formula = .ok selected := by
    obtain ⟨-, hnone⟩ | ⟨-, s, hsome, -⟩ := h.caret.selected? h.formula
    · exact ⟨_, hnone, hnone⟩
    · exact ⟨_, hsome, hsome⟩
  refine hsel.bind fun selected hselected => ?_
  split
  · rename_i e d hreuse
    obtain ⟨g, half, hopen, ho, he, hs⟩ := h.openScript_beside hselected hreuse superscript
    have hr := ho.keeps.reachable h.caret.place.reachable
    have hgive := (h.opened ho).giveSelection_beside d hr he ho.acceptor hs
    rw [hopen]
    refine Succeeds.bind (Succeeds.ok rfl) ?_
    rintro _ rfl
    refine hgive.bind ?_
    rintro ⟨doc', given⟩ ⟨hrest, hlists, hlen⟩
    have hhalf := hlists half ho.mem_half
    simp only
    split
    · exact .ok (hrest.moveCaret (Formula.isPlace_endOf hhalf))
    · exact .ok (hrest.moveCaret ⟨hhalf, hlen⟩)
  · exact h.insertNewScript superscript

/-! ## Operands -/

/-- Putting loose elements in at the beginning of a list that is no part of the formula yet, or at
any other place, leaves the caret where it is. -/
theorem Resting.fill (h : doc.Resting) {l : ListId} {es others : List ElementId}
    (hl : doc.formula.HasList l) (hes : doc.formula.Ready es) (ho : doc.formula.Ready others)
    (hd : ∀ e ∈ others, e ∉ es) :
    Succeeds (doc.splice l 0 0 es) fun r => r.1.Resting ∧ r.1.formula.Ready others ∧
      (∀ l, doc.formula.HasList l → r.1.formula.HasList l) ∧
      ∀ e, r.1.formula.element e = doc.formula.element e := by
  have htakes : doc.formula.Takes es _ := .within hl (Nat.zero_le (doc.formula.length l))
  rw [splice_eq (Nat.le_refl 0) (Nat.zero_le _)]
  refine .ok ⟨h.setFormula (htakes.tidy h.formula hes) (htakes.isPlace h.caret.place),
    htakes.ready h.formula hes ho hd, fun l hl => ?_, htakes.element⟩
  simpa [Formula.HasList] using hl

/-- The new element takes the operands in: a fraction both of them, an exponent the right one.
Whatever comes after finds it ready to be put in. -/
theorem Resting.takeOperands (h : doc.Resting) {left right : List ElementId}
    (he : doc.formula.Ready [e]) (hleft : doc.formula.Ready left) (hright : doc.formula.Ready right)
    (hel : e ∉ left) (her : e ∉ right) (hlr : ∀ x ∈ right, x ∉ left) {q : Document → Prop}
    {next : Document → Except Misuse Document}
    (hnext : ∀ doc', doc'.Resting → doc'.formula.Ready [e] → Succeeds (next doc') q) :
    Succeeds (match doc.formula.element e with
      | .frac numerator denominator => do
        let (doc, _) ← doc.splice numerator 0 0 left
        let (doc, _) ← doc.splice denominator 0 0 right
        let doc ← .ok doc
        next doc
      | .scripts (some exponent) _ _ => do
        let (doc, _) ← doc.splice exponent 0 0 right
        let (formula, _) ← doc.formula.openScript e true
        let doc ← .ok { doc with formula }
        next doc
      | _ => do
        let doc ← .ok doc
        next doc) q := by
  have hf := h.formula
  split
  · rename_i numerator denominator hx
    have hlists : ∀ l ∈ [numerator, denominator], doc.formula.HasList l := fun l hl =>
      hf.allocated e l (by rwa [Formula.listsOf, hx])
    refine (h.fill (hlists numerator (by simp)) hleft (he.cons hright her) ?_).bind ?_
    · simpa [hel] using hlr
    rintro ⟨doc', _⟩ ⟨hrest, hready, hhas, -⟩
    refine (hrest.fill (hhas denominator (hlists denominator (by simp)))
      (hready.sublist (List.sublist_cons_self e right))
      (hready.sublist (List.cons_sublist_cons.mpr (List.nil_sublist right))) ?_).bind ?_
    · simpa using her
    rintro ⟨doc'', _⟩ ⟨hrest', hready', -, -⟩
    exact hnext doc'' hrest' hready'
  · rename_i exponent subscript acceptor hx
    have hl : doc.formula.HasList exponent :=
      hf.allocated e exponent (by simp [Formula.listsOf, hx, Element.lists])
    refine (h.fill hl hright he (by simpa using her)).bind ?_
    rintro ⟨doc', _⟩ ⟨hrest, hready, -, helement⟩
    have hmem : e ∈ [e] := List.mem_singleton_self e
    obtain ⟨g, half, hopen, ho⟩ := Formula.openScript_spec hrest.formula
      (hready.hasElement e hmem) (hready.whole e hmem) ((helement e).trans hx) true
    simp only [hopen]
    exact hnext _ ⟨hrest.toValid.opened ho, hrest.selecting⟩
      (ho.ready (hready.hasElement e hmem) (hready.parent e hmem))
  · exact hnext doc h he

/-- Taking a run out of a list of the formula. -/
theorem takeOut_spec (doc : Document) {l : ListId} {start stop : Nat} (hf : doc.formula.Tidy)
    (hl : doc.formula.Reachable l) (hs : start ≤ stop) (hst : stop ≤ doc.formula.length l) :
    ∃ g removed, doc.splice l start stop [] = .ok ({ doc with formula := g }, removed) ∧ g.Tidy ∧
      g.Reachable l ∧ g.length l = doc.formula.length l - (stop - start) ∧ g.Ready removed ∧
      ∀ es, doc.formula.Ready es → g.Ready es ∧ ∀ e ∈ es, e ∉ removed := by
  have hhas := hf.hasList_of_reachable hl
  refine ⟨_, _, splice_eq hs hst, hf.replaceRange hhas hs .nil, hf.reachable_replaceRange hl,
    Formula.length_replaceRange hhas hs hst, hf.ready_range hhas hs .nil, fun es hes =>
    ⟨hf.ready_replaceRange hhas start stop .nil hes (by simp), fun e he hc => ?_⟩⟩
  exact hes.not_mem_elements hf he (Formula.mem_elements_of_mem_range hc)

theorem filled_emptyNode (kind : GreedyKind) : Node.EveryNode Node.Filled [kind.emptyNode] := by
  cases kind <;>
    simp [GreedyKind.emptyNode, Node.everyNode_singleton, Node.lists, Node.Filled,
      Node.everyNode_nil]

/-- Inserting around operands succeeds. -/
theorem Resting.insertAround (h : doc.Resting) (kind : GreedyKind) :
    Succeeds (doc.insertAround kind) Resting := by
  have hf := h.formula
  have hplace := h.caret.place
  have hl := hplace.hasList hf
  have hlen : (doc.formula.operandTokens doc.caret.place.list).length =
      doc.formula.length doc.caret.place.list := by
    simp [Formula.operandTokens, Formula.length]
  have hle := hplace.le_length
  unfold Document.insertAround
  generalize hp : doc.caret.place = p at hplace hl hlen hle
  simp only
  rw [if_neg (by omega)]
  have htakeLeft : (if kind.takesLeft then OperandToken.absorbLeft
      ((doc.formula.operandTokens p.list).take p.pos) else 0) ≤ p.pos := by
    have := OperandToken.absorbLeft_le ((doc.formula.operandTokens p.list).take p.pos)
    rw [List.length_take] at this
    split <;> omega
  have htakeRight : p.pos + OperandToken.absorbRight
      ((doc.formula.operandTokens p.list).drop p.pos) ≤ doc.formula.length p.list := by
    have := OperandToken.absorbRight_le ((doc.formula.operandTokens p.list).drop p.pos)
    rw [List.length_drop] at this
    omega
  generalize (if kind.takesLeft then OperandToken.absorbLeft
      ((doc.formula.operandTokens p.list).take p.pos) else 0) = takeLeft at htakeLeft ⊢
  generalize OperandToken.absorbRight
      ((doc.formula.operandTokens p.list).drop p.pos) = takeRight at htakeRight ⊢
  -- The operands are taken out of the list, the right one before the left one.
  obtain ⟨f₁, right, hsplice₁, hf₁, hr₁, hlen₁, hright, -⟩ :=
    takeOut_spec doc hf hplace.reachable (Nat.le_add_right p.pos takeRight) htakeRight
  obtain ⟨f₂, left, hsplice₂, hf₂, hr₂, hlen₂, hleft, hkept⟩ :=
    takeOut_spec { doc with formula := f₁ } hf₁ hr₁ (Nat.sub_le p.pos takeLeft)
      (by simp only; omega)
  obtain ⟨hright, hlr⟩ := hkept right hright
  have hrest : (Document.moveCaret { doc with formula := f₂ }
      ⟨p.list, p.pos - takeLeft⟩).Resting := h.edit hf₂ ⟨hr₂, by simp only at *; omega⟩
  -- Then the new element takes them in and is put in itself.
  obtain ⟨hf₃, hgrows, he⟩ := hf₂.plant (filled_emptyNode kind)
  have hrest' : Resting { Document.moveCaret { doc with formula := f₂ } ⟨p.list, p.pos - takeLeft⟩
      with formula := (f₂.plant kind.emptyNode).1 } :=
    ⟨hrest.toValid.grows hf₃ hgrows, hrest.selecting⟩
  rw [hsplice₁]
  refine Succeeds.bind (Succeeds.ok rfl) ?_
  rintro _ rfl
  simp only [hsplice₂]
  refine Succeeds.bind (Succeeds.ok rfl) ?_
  rintro _ rfl
  refine hrest'.takeOperands he (hleft.grows hf₂ hgrows) (hright.grows hf₂ hgrows)
    (hf₂.plant_not_mem _ hleft) (hf₂.plant_not_mem _ hright) hlr fun doc' hdoc' he' => ?_
  refine (hdoc'.place he').bind ?_
  rintro doc'' ⟨hdoc'', hlists⟩
  split
  · rename_i l hb
    exact .ok (hdoc''.moveCaret (Formula.isPlace_startOf
      (hlists l (Formula.mem_lists_of_boundary? hb))))
  · exact .ok hdoc''

/-- The exponent of a new superscript can be opened, and is ready to be put in then. -/
theorem Valid.openScript_superscript (h : doc.Valid) :
    ∃ g half, (doc.plant GreedyKind.superscript.emptyNode).1.formula.openScript
        (doc.plant GreedyKind.superscript.emptyNode).2 true = .ok (g, half) ∧
      { doc with formula := g }.Valid ∧
      g.Ready [(doc.plant GreedyKind.superscript.emptyNode).2] := by
  obtain ⟨hg, hgrows, he⟩ := h.formula.plant (filled_emptyNode .superscript)
  have hmem : (doc.formula.plant GreedyKind.superscript.emptyNode).2 ∈
      [(doc.formula.plant GreedyKind.superscript.emptyNode).2] := List.mem_singleton_self _
  obtain ⟨ls, hlen, helement⟩ := Formula.element_plant h.formula.toSound
    GreedyKind.superscript.emptyNode
  obtain ⟨l, rfl⟩ : ∃ l, ls = [l] := List.length_eq_one_iff.mp hlen
  obtain ⟨g, half, hopen, ho⟩ := Formula.openScript_spec hg (he.hasElement _ hmem)
    (he.whole _ hmem) helement true
  exact ⟨g, half, hopen, (h.grows hg hgrows).opened ho,
    ho.ready (he.hasElement _ hmem) (he.parent _ hmem)⟩

/-- Inserting a fraction or an exponent succeeds, around the selection as well as around operands. -/
theorem Valid.insertGreedy (h : doc.Valid) (kind : GreedyKind) :
    Succeeds (doc.insertGreedy kind) Resting := by
  unfold Document.insertGreedy
  cases hs : doc.caret.selecting with
  | false => exact Resting.insertAround ⟨h, hs⟩ kind
  | true =>
    cases kind with
    | frac =>
      obtain ⟨hg, hgrows, he⟩ := h.formula.plant (filled_emptyNode .frac)
      exact (h.grows hg hgrows).insert he .left
    | superscript =>
      obtain ⟨g, half, hopen, hvalid, hready⟩ := h.openScript_superscript
      simp only [↓reduceIte, hopen]
      exact hvalid.insert hready .left

end Document

end FormulaEditor
