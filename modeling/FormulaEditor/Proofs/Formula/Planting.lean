import FormulaEditor.Formula.Plant
import FormulaEditor.Proofs.Formula.Nesting
import FormulaEditor.Proofs.Node.Depth

/-!
# Planting

Planting adds slots and touches none that were there: the formula `Grows`. What it hands out are new
elements that stand nowhere and own their lists, ready to go into a list.
-/

namespace FormulaEditor

/-- Scripts have a half. -/
def Node.Filled : Node → Prop
  | .scripts none none => False
  | _ => True

/-- Scripts have a half, and their acceptor is one of the halves. -/
def Element.Filled : Element → Prop
  | .scripts exponent subscript acceptor =>
    (exponent.isSome ∨ subscript.isSome) ∧
      ∀ l, acceptor = some l → exponent = some l ∨ subscript = some l
  | _ => True

/-- The element for a node, given the lists for the lists of the node. -/
def Node.element : Node → List ListId → Element
  | .atom text, _ => .atom (Text.italicize text)
  | .binary op, _ => .binary op
  | .function name, _ => .function name
  | .paren char, _ => .paren char
  | .frac _ _, [numerator, denominator] => .frac numerator denominator
  | .radical none _, [radicand] => .radical none radicand
  | .radical (some _) _, [index, radicand] => .radical (some index) radicand
  | .scripts none none, _ => .scripts none none none
  | .scripts (some _) none, [exponent] => .scripts (some exponent) none none
  | .scripts none (some _), [subscript] => .scripts none (some subscript) none
  | .scripts (some _) (some _), [exponent, subscript] =>
    .scripts (some exponent) (some subscript) none
  | .wrapped wrap _, [argument] => .wrapped wrap argument
  | .big op _ _, [top, bottom] => .big op top bottom
  | _, _ => default

theorem Node.lists_element {n : Node} {ls : List ListId} (h : ls.length = n.lists.length) :
    (n.element ls).lists = ls := by
  rcases n with _ | _ | _ | _ | _ | ⟨_ | _, _⟩ | ⟨_ | _, _ | _⟩ | _ | _ <;>
    rcases ls with _ | ⟨_, _ | ⟨_, _ | ⟨_, _⟩⟩⟩ <;>
    simp_all [Node.lists, Node.element, Element.lists]

theorem Node.filled_element {n : Node} {ls : List ListId} (hn : n.Filled)
    (h : ls.length = n.lists.length) : (n.element ls).Filled := by
  rcases n with _ | _ | _ | _ | _ | ⟨_ | _, _⟩ | ⟨_ | _, _ | _⟩ | _ | _ <;>
    rcases ls with _ | ⟨_, _ | ⟨_, _ | ⟨_, _⟩⟩⟩ <;>
    simp_all [Node.lists, Node.Filled, Node.element, Element.Filled]

/-- A node whose lists are empty has no other node inside. -/
theorem Node.everyNode_filled {n : Node} (hn : n.Filled) (hl : ∀ l ∈ n.lists, l = []) :
    Node.EveryNode Node.Filled [n] :=
  Node.everyNode_singleton.mpr ⟨hn, fun l hm => hl l hm ▸ Node.everyNode_nil⟩

namespace Formula

variable {f g h : Formula} {e : ElementId} {l : ListId} {es : List ElementId}
  {ls : List ListId} {pending : List ElementId}

/-- Scripts inside lists have a half, and their acceptor is one of the halves. -/
def Filled (f : Formula) : Prop :=
  ∀ e l, f.parent e = some l → (f.element e).Filled

/-! ## Growth -/

/-- The second formula has the slots of the first one, as they were. -/
structure Frames (f g : Formula) : Prop where
  root : g.root = f.root
  hasElement : ∀ {e}, f.HasElement e → g.HasElement e
  hasList : ∀ {l}, f.HasList l → g.HasList l
  elementSlot : ∀ {e}, f.HasElement e → g.elementSlot e = f.elementSlot e
  listSlot : ∀ {l}, f.HasList l → g.listSlot l = f.listSlot l

namespace Frames

theorem refl (f : Formula) : f.Frames f :=
  ⟨rfl, id, id, fun _ => rfl, fun _ => rfl⟩

theorem trans (hfg : f.Frames g) (hgh : g.Frames h) : f.Frames h where
  root := hgh.root.trans hfg.root
  hasElement he := hgh.hasElement (hfg.hasElement he)
  hasList hl := hgh.hasList (hfg.hasList hl)
  elementSlot he := (hgh.elementSlot (hfg.hasElement he)).trans (hfg.elementSlot he)
  listSlot hl := (hgh.listSlot (hfg.hasList hl)).trans (hfg.listSlot hl)

theorem element (hg : f.Frames g) (he : f.HasElement e) : g.element e = f.element e := by
  rw [Formula.element, hg.elementSlot he, Formula.element]

theorem parent (hg : f.Frames g) (he : f.HasElement e) : g.parent e = f.parent e := by
  rw [Formula.parent, hg.elementSlot he, Formula.parent]

theorem position (hg : f.Frames g) (he : f.HasElement e) : g.position e = f.position e := by
  rw [Formula.position, hg.elementSlot he, Formula.position]

theorem listsOf (hg : f.Frames g) (he : f.HasElement e) : g.listsOf e = f.listsOf e := by
  rw [Formula.listsOf, hg.element he, Formula.listsOf]

theorem elements (hg : f.Frames g) (hl : f.HasList l) : g.elements l = f.elements l := by
  rw [Formula.elements, hg.listSlot hl, Formula.elements]

theorem owner (hg : f.Frames g) (hl : f.HasList l) : g.owner l = f.owner l := by
  rw [Formula.owner, hg.listSlot hl, Formula.owner]

theorem loose (hg : f.Frames g) (h : f.Loose es) : g.Loose es where
  nodup := h.nodup
  hasElement e he := hg.hasElement (h.hasElement e he)
  parent e he := by rw [hg.parent (h.hasElement e he), h.parent e he]

theorem allocElement (f : Formula) (x : Element) : f.Frames (f.allocElement x).1 where
  root := rfl
  hasElement he := by
    simp only [HasElement, size_elementSlots_allocElement] at he ⊢
    omega
  hasList hl := hl
  elementSlot he := by
    rw [elementSlot_allocElement, if_neg]
    rintro rfl
    exact not_hasElement_nextElement he
  listSlot _ := rfl

/-- A new list of new elements takes no old slot. -/
theorem adoptList (hg : f.Frames g) (hes : ∀ e ∈ es, ¬f.HasElement e) :
    f.Frames (g.adoptList e es).1 where
  root := by rw [root_adoptList, hg.root]
  hasElement h := by simpa [HasElement] using hg.hasElement h
  hasList h := by
    have := hg.hasList h
    simp only [HasList, size_listSlots_adoptList] at this ⊢
    omega
  elementSlot {e'} he' := by
    have hmem : e' ∉ es := fun hc => hes e' hc he'
    rw [adoptList_eq, reindex_eq_placeAll, elements_adoptOnly,
      elementSlot_placeAll_of_not_mem hmem]
    exact hg.elementSlot he'
  listSlot {l} hl := by
    have hne : g.nextList ≠ l := by
      rintro rfl
      exact not_hasList_nextList (hg.hasList hl)
    have hs : (g.adoptList e es).1.listSlot l = (g.adoptOnly e es).listSlot l := by
      simp [adoptList_eq, Formula.listSlot]
    rw [hs, listSlot_adoptOnly, if_neg hne, hg.listSlot hl]

/-- Exchanging a new element changes no old slot. -/
theorem setElement (hg : f.Frames g) (he : ¬f.HasElement e) (x : Element) :
    f.Frames (g.setElement e x) where
  root := hg.root
  hasElement h := by simpa [HasElement, Formula.setElement] using hg.hasElement h
  hasList := hg.hasList
  elementSlot {e'} he' := by
    have hne : e ≠ e' := by
      rintro rfl
      exact he he'
    rw [Formula.setElement, elementSlot_modifyElement, if_neg fun hc => hne hc.1,
      hg.elementSlot he']
  listSlot := hg.listSlot

end Frames

/-- The second formula has the slots of the first one, and new lists are those of new elements. -/
structure Grows (f g : Formula) : Prop extends f.Frames g where
  owned : ∀ {l e}, g.owner l = some e → f.HasElement e → f.HasList l

namespace Grows

theorem refl (f : Formula) : f.Grows f :=
  ⟨.refl f, fun ho _ => hasList_of_owner ho⟩

theorem trans (hfg : f.Grows g) (hgh : g.Grows h) : f.Grows h where
  toFrames := hfg.toFrames.trans hgh.toFrames
  owned ho he := by
    have hl := hgh.owned ho (hfg.hasElement he)
    rw [hgh.owner hl] at ho
    exact hfg.owned ho he

theorem whole (hg : f.Grows g) (hf : f.Linked pending) (he : f.HasElement e) (hw : f.Whole e) :
    g.Whole e where
  owns l hl := by
    rw [hg.listsOf he] at hl
    rw [hg.owner (hf.allocated e l hl)]
    exact hw.owns l hl
  nodup := by
    rw [hg.listsOf he]
    exact hw.nodup

theorem keeps (hg : f.Grows g) : f.Keeps g where
  root := hg.root
  link l e he i hi :=
    ⟨by rwa [hg.elements (hasList_of_mem he)],
      by rwa [hg.listsOf (hasElement_of_mem_listsOf hi)]⟩

theorem allocElement (f : Formula) (x : Element) : f.Grows (f.allocElement x).1 where
  toFrames := .allocElement f x
  owned ho _ := hasList_of_owner (f := f) ho

/-- Adopting new elements into a list of a new element is growth. -/
theorem adoptList (hg : f.Grows g) (he : ¬f.HasElement e) (hes : ∀ e ∈ es, ¬f.HasElement e) :
    f.Grows (g.adoptList e es).1 where
  toFrames := hg.toFrames.adoptList hes
  owned ho he' := by
    rw [owner_adoptList] at ho
    split at ho
    · cases ho
      exact absurd he' he
    · exact hg.owned ho he'

/-- Exchanging a new element is growth. -/
theorem setElement (hg : f.Grows g) (he : ¬f.HasElement e) (x : Element) :
    f.Grows (g.setElement e x) where
  toFrames := hg.toFrames.setElement he x
  owned := hg.owned

end Grows

/-! ## Lists of one element -/

/-- Plants lists of an element, in order. -/
def plantLists (f : Formula) (e : ElementId) : List (List Node) → Formula × List ListId
  | [] => (f, [])
  | ns :: rest =>
    let (f, es) := f.plantAll ns
    let (f, l) := f.adoptList e es
    let (f, ls) := f.plantLists e rest
    (f, l :: ls)

/-- A node takes one slot, its lists take theirs, and then the element is put in. -/
theorem plant_eq (f : Formula) (n : Node) : f.plant n =
    let (f, e) := f.allocElement default
    let (f, ls) := f.plantLists e n.lists
    (f.setElement e (n.element ls), e) := by
  have hleaf : ∀ x, f.allocElement x =
      ((f.allocElement default).1.setElement f.nextElement x, f.nextElement) := fun x => by
    rw [setElement_allocElement]
    rfl
  rcases n with _ | _ | _ | _ | _ | ⟨_ | _, _⟩ | ⟨_ | _, _ | _⟩ | _ | _ <;>
    first | rfl | exact hleaf _

theorem length_plantLists (nss : List (List Node)) :
    (f.plantLists e nss).2.length = nss.length := by
  induction nss generalizing f with
  | nil => rfl
  | cons ns rest ih => exact congrArg (· + 1) ih

/-- What planting nodes in the first formula leads to: the second one and the new elements. -/
structure Planted (f : Formula) (pending : List ElementId) (ns : List Node) (g : Formula)
    (es : List ElementId) : Prop where
  sound : g.Sound pending
  grows : f.Grows g
  loose : g.Loose es
  whole : ∀ e ∈ es, g.Whole e
  fresh : ∀ e ∈ es, ¬f.HasElement e
  filled : f.Filled → Node.EveryNode Node.Filled ns →
    g.Filled ∧ ∀ e ∈ es, (g.element e).Filled

/-- A state in which a new element is under construction, with some of its lists there. -/
structure Growing (f : Formula) (pending : List ElementId) (e : ElementId) (g : Formula)
    (ls : List ListId) : Prop where
  allocated : ∀ e ∈ pending, f.HasElement e
  sound : g.Sound (e :: pending)
  grows : f.Grows g
  fresh : ¬f.HasElement e
  hasElement : g.HasElement e
  parent : g.parent e = none
  owner_iff : ∀ l, g.owner l = some e ↔ l ∈ ls
  nodup : ls.Nodup

theorem Filled.of_parent (h : f.Filled)
    (hp : ∀ e l, g.parent e = some l →
      f.parent e = some l ∧ g.element e = f.element e ∨ (g.element e).Filled) : g.Filled := by
  intro e l hl
  obtain ⟨hf, he⟩ | he := hp e l hl
  · rw [he]
    exact h e l hf
  · exact he

/-- The step from one list of a new element to the next. -/
theorem Growing.adoptList {ns : List Node} {g' : Formula} (hg : f.Growing pending e g ls)
    (hp : g.Planted (e :: pending) ns g' es) :
    f.Growing pending e (g'.adoptList e es).1 (ls ++ [g'.nextList]) := by
  have hfresh : ∀ e ∈ es, ¬f.HasElement e := fun e' he' hc =>
    hp.fresh e' he' (hg.grows.hasElement hc)
  have hmem : e ∉ es := fun hc => hp.fresh e hc hg.hasElement
  have hown : ∀ l, g'.owner l = some e ↔ l ∈ ls := by
    intro l
    rw [← hg.owner_iff]
    constructor
    · intro ho
      rwa [← hp.grows.owner (hp.grows.owned ho hg.hasElement)]
    · intro ho
      rwa [hp.grows.owner (hasList_of_owner ho)]
  have hnext : g'.nextList ∉ ls := fun hc =>
    not_hasList_nextList (hasList_of_owner ((hown _).mpr hc))
  exact {
    allocated := hg.allocated
    sound := hp.sound.adoptList (by simp) hp.loose hp.whole
    grows := (hg.grows.trans hp.grows).adoptList hg.fresh hfresh
    fresh := hg.fresh
    hasElement := by simpa [HasElement] using hp.grows.hasElement hg.hasElement
    parent := by
      rw [parent_adoptList hp.loose.hasElement, if_neg hmem, hp.grows.parent hg.hasElement,
        hg.parent]
    owner_iff := fun l => by
      rw [owner_adoptList, List.mem_append, List.mem_singleton, ← hown]
      by_cases h : g'.nextList = l
      · simp [h]
      · simp [h, Ne.symm h]
    nodup := by
      simp only [List.nodup_append, List.nodup_singleton, List.mem_singleton]
      refine ⟨hg.nodup, trivial, ?_⟩
      rintro a ha b rfl rfl
      exact hnext ha }

theorem Filled.adoptList (h : f.Filled) (hes : ∀ e ∈ es, f.HasElement e)
    (hf : ∀ e ∈ es, (f.element e).Filled) : (f.adoptList e es).1.Filled := by
  refine h.of_parent fun e' l hl => ?_
  rw [parent_adoptList hes] at hl
  simp only [element_adoptList]
  split at hl
  · exact .inr (hf e' ‹_›)
  · exact .inl ⟨hl, trivial⟩

/-- Planting the lists of a new element, once it is known of each of them. -/
theorem Growing.plantLists {nss : List (List Node)}
    (ih : ∀ ns ∈ nss, ∀ (f : Formula) (pending : List ElementId), f.Sound pending →
      (∀ e ∈ pending, f.HasElement e) → f.Planted pending ns (f.plantAll ns).1 (f.plantAll ns).2)
    (hg : f.Growing pending e g ls) :
    f.Growing pending e (g.plantLists e nss).1 (ls ++ (g.plantLists e nss).2) ∧
      (g.Filled → (∀ ns ∈ nss, Node.EveryNode Node.Filled ns) →
        (g.plantLists e nss).1.Filled) := by
  induction nss generalizing g ls with
  | nil => exact ⟨by simpa [Formula.plantLists] using hg, fun h _ => h⟩
  | cons ns rest ihr =>
    have hpend : ∀ e' ∈ e :: pending, g.HasElement e' := by
      simpa using ⟨hg.hasElement, fun e' he' => hg.grows.hasElement (hg.allocated e' he')⟩
    have hp := ih ns (by simp) g (e :: pending) hg.sound hpend
    obtain ⟨hgr, hfill⟩ := ihr (fun ns hns => ih ns (by simp [hns])) (hg.adoptList hp)
    refine ⟨by simpa [Formula.plantLists] using hgr, fun hf hns => ?_⟩
    obtain ⟨hf, hes⟩ := hp.filled hf (hns ns (by simp))
    exact hfill (hf.adoptList hp.loose.hasElement hes) fun ns hm => hns ns (by simp [hm])

/-- Putting the element itself in once its lists are there. -/
theorem Growing.setElement {n : Node} {x : Element} (hg : f.Growing pending e g ls)
    (hx : x.lists = ls)
    (hfill : f.Filled → Node.EveryNode Node.Filled [n] → g.Filled ∧ x.Filled) :
    f.Planted pending [n] (g.setElement e x) [e] := by
  have hl : (g.setElement e x).Linked pending :=
    hg.sound.toLinked.setElement hg.hasElement (fun l ho => hx ▸ (hg.owner_iff l).mp ho)
      fun l hm => hasList_of_owner ((hg.owner_iff l).mpr (hx ▸ hm))
  have hne : ∀ {e' l}, g.parent e' = some l → e ≠ e' := by
    rintro e' l hp rfl
    simp [hg.parent] at hp
  have hset : (g.setElement e x).element e = x := by
    rw [element_setElement, if_pos ⟨rfl, hg.hasElement⟩]
  exact {
    sound :=
      { toLinked := hl
        whole := fun e' l hp => by
          rw [parent_setElement] at hp
          rw [whole_setElement_of_ne x (hne hp)]
          exact hg.sound.whole e' l hp }
    grows := hg.grows.setElement hg.fresh x
    loose := Loose.singleton (by simpa [HasElement, Formula.setElement] using hg.hasElement)
      (by rw [parent_setElement, hg.parent])
    whole := by
      simp only [List.mem_singleton, forall_eq]
      refine whole_setElement_self x hg.hasElement (fun l hm => ?_) (hx ▸ hg.nodup)
      exact (hg.owner_iff l).mpr (hx ▸ hm)
    fresh := by simpa using hg.fresh
    filled := fun hf hn => by
      obtain ⟨hf, hx⟩ := hfill hf hn
      simp only [List.mem_singleton, forall_eq, hset]
      refine ⟨hf.of_parent fun e' l hp => .inl ?_, hx⟩
      rw [parent_setElement] at hp
      exact ⟨hp, by rw [element_setElement, if_neg fun hc => hne hp hc.1]⟩ }

/-- A new element without lists. -/
theorem Sound.growing (h : f.Sound pending) (hpend : ∀ e ∈ pending, f.HasElement e) {x : Element}
    (hx : x.lists = []) : f.Growing pending f.nextElement (f.allocElement x).1 [] where
  allocated := hpend
  sound :=
    { toLinked := (h.toLinked.allocElement hx).mono fun e he => List.mem_cons_of_mem _ he
      whole := (h.allocElement hx).whole }
  grows := .allocElement f x
  fresh := not_hasElement_nextElement
  hasElement := by
    simp only [HasElement, size_elementSlots_allocElement, nextElement]
    omega
  parent := by
    rw [parent_allocElement, Formula.parent,
      elementSlot_of_not_hasElement not_hasElement_nextElement]
  owner_iff l := by
    simp only [List.not_mem_nil, iff_false]
    intro ho
    obtain hl | hp := h.owned l f.nextElement ho
    · exact not_hasElement_nextElement (hasElement_of_mem_listsOf hl)
    · exact not_hasElement_nextElement (hpend _ hp)
  nodup := List.nodup_nil

theorem Filled.allocElement {x : Element} (h : f.Filled) : (f.allocElement x).1.Filled := by
  refine h.of_parent fun e l hp => .inl ?_
  rw [parent_allocElement] at hp
  refine ⟨hp, ?_⟩
  rw [element_allocElement, if_neg]
  rintro rfl
  exact not_hasElement_nextElement (hasElement_of_parent hp)

theorem Planted.nil (h : f.Sound pending) : f.Planted pending [] f [] where
  sound := h
  grows := .refl f
  loose := .nil
  whole := by simp
  fresh := by simp
  filled hf _ := ⟨hf, by simp⟩

theorem Planted.cons {n : Node} {ns : List Node} (hn : f.Planted pending [n] g [e])
    (hns : g.Planted pending ns h es) : f.Planted pending (n :: ns) h (e :: es) := by
  have he : g.HasElement e := hn.loose.hasElement e (by simp)
  have hne : e ∉ es := fun hc => hns.fresh e hc he
  have hloose := hns.grows.loose hn.loose
  exact {
    sound := hns.sound
    grows := hn.grows.trans hns.grows
    loose :=
      { nodup := List.nodup_cons.mpr ⟨hne, hns.loose.nodup⟩
        hasElement := by simpa using ⟨hloose.hasElement e (by simp), hns.loose.hasElement⟩
        parent := by simpa using ⟨hloose.parent e (by simp), hns.loose.parent⟩ }
    whole := by
      simpa using ⟨hns.grows.whole hn.sound.toLinked he (hn.whole e (by simp)), hns.whole⟩
    fresh := by
      simpa using ⟨hn.fresh e (by simp), fun e' he' hc =>
        hns.fresh e' he' (hn.grows.hasElement hc)⟩
    filled := fun hf hm => by
      obtain ⟨hm, hms⟩ := Node.everyNode_cons.mp hm
      obtain ⟨hg, hfe⟩ := hn.filled hf (Node.everyNode_cons.mpr ⟨hm, Node.everyNode_nil⟩)
      obtain ⟨hh, hfes⟩ := hns.filled hg hms
      refine ⟨hh, ?_⟩
      simpa [hns.grows.element he] using ⟨hfe e (by simp), hfes⟩ }

/-- Planting is safe: of one node, and of nodes in order. -/
theorem planted : (∀ (n : Node) (f : Formula) (pending : List ElementId), f.Sound pending →
      (∀ e ∈ pending, f.HasElement e) → f.Planted pending [n] (f.plant n).1 [(f.plant n).2]) ∧
    ∀ (ns : List Node) (f : Formula) (pending : List ElementId), f.Sound pending →
      (∀ e ∈ pending, f.HasElement e) →
      f.Planted pending ns (f.plantAll ns).1 (f.plantAll ns).2 := by
  refine Node.induction ?node ?nil ?cons
  case node =>
    intro n ih f pending hf hpend
    rw [plant_eq]
    obtain ⟨hgrow, hfill⟩ := (hf.growing hpend (x := default) rfl).plantLists ih
    refine hgrow.setElement (Node.lists_element (length_plantLists _)) fun h hm => ?_
    obtain ⟨⟨hn, hl⟩, -⟩ := Node.everyNode_cons.mp hm
    exact ⟨hfill h.allocElement hl, Node.filled_element hn (length_plantLists _)⟩
  case nil => exact fun f pending hf _ => .nil hf
  case cons =>
    intro n ns hn hns f pending hf hpend
    have hn := hn f pending hf hpend
    exact hn.cons (hns _ pending hn.sound fun e he => hn.grows.hasElement (hpend e he))

/-- The element for a node is as the node says, up to the handles of its lists. -/
theorem element_plant (hf : f.Sound []) (n : Node) :
    ∃ ls, ls.length = n.lists.length ∧ (f.plant n).1.element (f.plant n).2 = n.element ls := by
  have hgrow := ((hf.growing (by simp) (x := default) rfl).plantLists
    fun ns (_ : ns ∈ n.lists) => planted.2 ns).1
  refine ⟨((f.allocElement default).1.plantLists f.nextElement n.lists).2,
    length_plantLists n.lists, ?_⟩
  rw [plant_eq]
  simp only [allocElement_snd]
  rw [element_setElement, if_pos ⟨rfl, hgrow.hasElement⟩]

end Formula

end FormulaEditor
