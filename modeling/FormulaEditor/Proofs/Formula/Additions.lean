import FormulaEditor.Proofs.Formula.Planting
import FormulaEditor.Proofs.Node.Respelled

/-!
# What planting adds

Planting adds content to a formula and leaves what is there alone. The links of what is new agree,
and it reads as the nodes, letters out of italics. Nothing is asked of the formula for this, as
nothing in it is looked at.
-/

namespace FormulaEditor

theorem Element.toNode_congr {x : Element} {read read' : ListId → List Node}
    (h : ∀ l ∈ x.lists, read l = read' l) : x.toNode read = x.toNode read' := by
  rcases x with _ | _ | _ | _ | _ | ⟨_ | _, _⟩ | ⟨_ | _, _ | _, _⟩ | _ | _ <;>
    simp_all [Element.lists, Element.toNode]

/-- An element reads as its node once its lists read as the lists of the node. -/
theorem Node.toNode_element {n : Node} {ls : List ListId} {read : ListId → List Node}
    (h : List.Forall₂ (fun l ns => read l = Node.uprightAll ns) ls n.lists) :
    (n.element ls).toNode read = n.upright := by
  rcases n with _ | _ | _ | _ | _ | ⟨_ | _, _⟩ | ⟨_ | _, _ | _⟩ | _ | _ <;>
    rcases ls with _ | ⟨_, _ | ⟨_, _ | ⟨_, _⟩⟩⟩ <;>
    simp_all [Node.lists, Node.element, Element.toNode, Node.upright, Node.uprightAll,
      Node.respelled]

namespace Formula

variable {f g h : Formula} {e : ElementId} {l : ListId} {es : List ElementId} {ls : List ListId}
  {ns : List Node} {nss : List (List Node)} {d : Nat}

/-! ## Reading down to a depth -/

/-- The node of an element, its lists read down to a given depth. -/
def spelled (f : Formula) (depth : Nat) (e : ElementId) : Node :=
  (f.element e).toNode (f.snapshotWithin depth)

theorem snapshotWithin_succ : f.snapshotWithin (d + 1) l = (f.elements l).map (f.spelled d) := rfl

/-- Lists read the same in two formulas that agree on them and on all that is inside. -/
theorem snapshotWithin_congr {P : ListId → Prop}
    (h : ∀ l, P l → g.elements l = f.elements l ∧ ∀ e ∈ f.elements l,
      g.element e = f.element e ∧ ∀ i ∈ f.listsOf e, P i)
    (hl : P l) : g.snapshotWithin d l = f.snapshotWithin d l := by
  induction d generalizing l with
  | zero => rfl
  | succ d ih =>
    obtain ⟨helements, hinside⟩ := h l hl
    rw [snapshotWithin_succ, snapshotWithin_succ, helements]
    refine List.map_congr_left fun e he => ?_
    obtain ⟨helement, hlists⟩ := hinside e he
    rw [spelled, spelled, helement]
    exact Element.toNode_congr fun i hi => ih (hlists i hi)

/-! ## New content -/

/-- The second formula has content besides that of the first one, and the links of what is new
agree. -/
structure Adds (f g : Formula) : Prop extends f.Frames g where
  /-- What is in a new list is new, and stands where the list has it. -/
  stands : ∀ {l i e}, ¬f.HasList l → (g.elements l)[i]? = some e →
    ¬f.HasElement e ∧ g.HasElement e ∧ g.parent e = some l ∧ g.position e = i
  /-- The lists of a new element are its own. -/
  whole : ∀ {e}, ¬f.HasElement e → g.Whole e
  /-- The lists of a new element are new. -/
  hasLists : ∀ {e l}, ¬f.HasElement e → l ∈ g.listsOf e → ¬f.HasList l ∧ g.HasList l

theorem whole_of_listsOf_eq_nil (h : f.listsOf e = []) : f.Whole e :=
  ⟨by simp [h], by simp [h]⟩

theorem listsOf_of_not_hasElement (h : ¬f.HasElement e) : f.listsOf e = [] :=
  List.eq_nil_iff_forall_not_mem.mpr fun _ hl => h (hasElement_of_mem_listsOf hl)

/-- A new element without lists adds nothing that has links. -/
theorem listsOf_allocElement {x : Element} (hx : x.lists = []) (he : ¬f.HasElement e) :
    (f.allocElement x).1.listsOf e = [] := by
  rw [listsOf, element_allocElement]
  split
  · exact hx
  · exact listsOf_of_not_hasElement he

namespace Adds

theorem refl (f : Formula) : f.Adds f where
  toFrames := .refl f
  stands hl hi := absurd (hasList_of_mem (List.mem_of_getElem? hi)) hl
  whole he := whole_of_listsOf_eq_nil (listsOf_of_not_hasElement he)
  hasLists he hl := absurd (hasElement_of_mem_listsOf hl) he

theorem trans (hfg : f.Adds g) (hgh : g.Adds h) : f.Adds h where
  toFrames := hfg.toFrames.trans hgh.toFrames
  stands {l i e} hl hi := by
    by_cases hg : g.HasList l
    · rw [hgh.elements hg] at hi
      obtain ⟨he, hge, hparent, hposition⟩ := hfg.stands hl hi
      exact ⟨he, hgh.hasElement hge, by rw [hgh.parent hge, hparent],
        by rw [hgh.position hge, hposition]⟩
    · exact (hgh.stands hg hi).imp_left (mt hfg.hasElement)
  whole {e} he := by
    by_cases hg : g.HasElement e
    · obtain ⟨howns, hnodup⟩ := hfg.whole he
      rw [← hgh.listsOf hg] at hnodup
      refine ⟨fun l hl => ?_, hnodup⟩
      rw [hgh.listsOf hg] at hl
      rw [hgh.owner (hfg.hasLists he hl).2, howns l hl]
    · exact hgh.whole hg
  hasLists {e l} he hl := by
    by_cases hg : g.HasElement e
    · rw [hgh.listsOf hg] at hl
      exact (hfg.hasLists he hl).imp_right hgh.hasList
    · exact (hgh.hasLists hg hl).imp_left (mt hfg.hasList)

theorem allocElement (f : Formula) {x : Element} (hx : x.lists = []) :
    f.Adds (f.allocElement x).1 where
  toFrames := .allocElement f x
  stands {l _ _} hl hi := absurd (hasList_of_mem (f := f) (List.mem_of_getElem? hi)) hl
  whole he := whole_of_listsOf_eq_nil (listsOf_allocElement hx he)
  hasLists he hl := by
    rw [listsOf_allocElement hx he] at hl
    cases hl

/-- New elements that stand nowhere may go into a new list. -/
theorem adoptList (hg : f.Adds g) (hnew : ∀ e ∈ es, ¬f.HasElement e) (hes : g.Loose es) :
    f.Adds (g.adoptList e es).1 where
  toFrames := hg.toFrames.adoptList hnew
  stands {l i e'} hl hi := by
    have hhas (he : g.HasElement e') : (g.adoptList e es).1.HasElement e' := by
      simpa [HasElement] using he
    rw [elements_adoptList] at hi
    rw [parent_adoptList hes.hasElement]
    split at hi
    · rename_i hnext
      have hmem := List.mem_of_getElem? hi
      rw [if_pos hmem, hnext, position_adoptList hes.nodup hi (hes.hasElement e' hmem)]
      exact ⟨hnew e' hmem, hhas (hes.hasElement e' hmem), rfl, rfl⟩
    · obtain ⟨he, hge, hparent, hposition⟩ := hg.stands hl hi
      have hmem : e' ∉ es := fun hmem => by simp [hes.parent e' hmem] at hparent
      rw [if_neg hmem, position_adoptList_of_not_mem hmem]
      exact ⟨he, hhas hge, hparent, hposition⟩
  whole {e'} he := by
    obtain ⟨howns, hnodup⟩ := hg.whole he
    refine ⟨fun l hl => ?_, by rwa [listsOf_adoptList]⟩
    rw [listsOf_adoptList] at hl
    have hne : g.nextList ≠ l := by
      rintro rfl
      exact not_hasList_nextList (hg.hasLists he hl).2
    rw [owner_adoptList, if_neg hne, howns l hl]
  hasLists {e' l} he hl := by
    rw [listsOf_adoptList] at hl
    refine (hg.hasLists he hl).imp_right fun hl => ?_
    simp only [HasList, size_listSlots_adoptList] at hl ⊢
    omega

/-- A new element may be exchanged for one that has new lists of its own. -/
theorem setElement {x : Element} (hg : f.Adds g) (he : ¬f.HasElement e) (hge : g.HasElement e)
    (hx : x.lists.Nodup) (hl : ∀ l ∈ x.lists, ¬f.HasList l ∧ g.HasList l ∧ g.owner l = some e) :
    f.Adds (g.setElement e x) where
  toFrames := hg.toFrames.setElement he x
  stands {l i e'} hl hi := by
    obtain ⟨he', hge', hparent, hposition⟩ := hg.stands hl hi
    exact ⟨he', by simpa [HasElement, Formula.setElement] using hge', by rwa [parent_setElement],
      by rwa [position_setElement]⟩
  whole {e'} he' := by
    by_cases hee : e = e'
    · subst hee
      exact whole_setElement_self x hge (fun l hm => (hl l hm).2.2) hx
    · exact (whole_setElement_of_ne x hee).mpr (hg.whole he')
  hasLists {e' l} he' hm := by
    by_cases hee : e = e'
    · subst hee
      rw [listsOf_setElement_self x hge] at hm
      exact ⟨(hl l hm).1, (hl l hm).2.1⟩
    · rw [listsOf_setElement_of_ne x hee] at hm
      exact hg.hasLists he' hm

/-- New lists read the same wherever the new content stays as it is. -/
theorem snapshotWithin (hg : f.Adds g)
    (helement : ∀ e, ¬f.HasElement e → g.HasElement e → h.element e = g.element e)
    (helements : ∀ l, ¬f.HasList l → g.HasList l → h.elements l = g.elements l)
    (hl : ¬f.HasList l ∧ g.HasList l) : h.snapshotWithin d l = g.snapshotWithin d l := by
  refine snapshotWithin_congr (P := fun l => ¬f.HasList l ∧ g.HasList l)
    (fun l hl => ⟨helements l hl.1 hl.2, fun e he => ?_⟩) hl
  obtain ⟨i, hi⟩ := List.mem_iff_getElem?.mp he
  obtain ⟨hnew, hge, -⟩ := hg.stands hl.1 hi
  exact ⟨helement e hnew hge, fun _ => hg.hasLists hnew⟩

/-- New elements read the same wherever the new content stays as it is. -/
theorem spelled (hg : f.Adds g)
    (helement : ∀ e, g.HasElement e → h.element e = g.element e)
    (helements : ∀ l, g.HasList l → h.elements l = g.elements l)
    (he : ¬f.HasElement e) (hge : g.HasElement e) : h.spelled d e = g.spelled d e := by
  rw [Formula.spelled, Formula.spelled, helement e hge]
  exact Element.toNode_congr fun i hi => hg.snapshotWithin (fun e _ => helement e)
    (fun l _ => helements l) (hg.hasLists he hi)

end Adds

/-! ## Planting -/

/-- What planting nodes leads to: new elements that stand nowhere and read as the nodes, at any
depth that takes in as many lists as are new. -/
structure Brings (f : Formula) (ns : List Node) (g : Formula) (es : List ElementId) : Prop where
  adds : f.Adds g
  loose : g.Loose es
  fresh : ∀ e ∈ es, ¬f.HasElement e
  reads : ∀ d, g.listSlots.size ≤ f.listSlots.size + d → es.map (g.spelled d) = Node.uprightAll ns

/-- What planting lists of an element leads to. -/
structure BringsLists (f : Formula) (e : ElementId) (nss : List (List Node)) (g : Formula)
    (ls : List ListId) : Prop where
  adds : f.Adds g
  fresh : ∀ l ∈ ls, ¬f.HasList l ∧ g.HasList l ∧ g.owner l = some e
  nodup : ls.Nodup
  reads : ∀ d, g.listSlots.size ≤ f.listSlots.size + d →
    List.Forall₂ (fun l ns => g.snapshotWithin d l = Node.uprightAll ns) ls nss

theorem Frames.size_listSlots_le (hg : f.Frames g) : f.listSlots.size ≤ g.listSlots.size := by
  by_contra hlt
  have hlast : g.HasList g.nextList := hg.hasList (by simpa [HasList, nextList] using hlt)
  exact not_hasList_nextList hlast

/-- The first list of an element, with the others behind it. -/
theorem Brings.cons_list (hns : f.Brings ns g es)
    (hrest : (g.adoptList e es).1.BringsLists e nss h ls) :
    f.BringsLists e (ns :: nss) h (g.nextList :: ls) := by
  have hadopt : f.Adds (g.adoptList e es).1 := hns.adds.adoptList hns.fresh hns.loose
  have hgrown := hns.adds.size_listSlots_le
  have hsize := hrest.adds.size_listSlots_le
  have hlist : (g.adoptList e es).1.HasList g.nextList := by simp [HasList, nextList]
  rw [size_listSlots_adoptList] at hsize
  refine ⟨hadopt.trans hrest.adds, ?_, List.nodup_cons.mpr ⟨fun hc => ?_, hrest.nodup⟩, ?_⟩
  · rw [List.forall_mem_cons]
    refine ⟨⟨mt hns.adds.hasList not_hasList_nextList, hrest.adds.hasList hlist, ?_⟩, fun l hl => ?_⟩
    · rw [hrest.adds.owner hlist, owner_adoptList, if_pos rfl]
    · exact (hrest.fresh l hl).imp_left (mt hadopt.hasList)
  · exact (hrest.fresh _ hc).1 hlist
  · intro d hd
    refine .cons ?_ (hrest.reads d (by rw [size_listSlots_adoptList]; omega))
    obtain ⟨d, rfl⟩ : ∃ k, d = k + 1 := ⟨d - 1, by omega⟩
    rw [snapshotWithin_succ, hrest.adds.elements hlist, elements_adoptList, if_pos rfl,
      ← hns.reads d (by omega)]
    refine List.map_congr_left fun e' he' => hns.adds.spelled (fun e'' he'' => ?_) (fun l hl => ?_)
      (hns.fresh e' he') (hns.loose.hasElement e' he')
    · rw [hrest.adds.element (by simpa [HasElement] using he''), element_adoptList]
    · have hne : g.nextList ≠ l := by
        rintro rfl
        exact not_hasList_nextList hl
      have hl' : (g.adoptList e es).1.HasList l := by
        simp only [HasList, size_listSlots_adoptList] at hl ⊢
        omega
      rw [hrest.adds.elements hl', elements_adoptList, if_neg hne]

theorem brings_plantLists (ih : ∀ ns ∈ nss, ∀ f : Formula,
      f.Brings ns (f.plantAll ns).1 (f.plantAll ns).2) (f : Formula) (e : ElementId) :
    f.BringsLists e nss (f.plantLists e nss).1 (f.plantLists e nss).2 := by
  induction nss generalizing f with
  | nil => exact ⟨.refl f, by simp [plantLists], .nil, fun _ _ => .nil⟩
  | cons ns rest ihr =>
    exact (ih ns (by simp) f).cons_list (ihr (fun ns hns => ih ns (by simp [hns])) _)

/-- The element itself, once its lists are there. -/
theorem BringsLists.setElement {n : Node} (hls : (f.allocElement default).1.BringsLists
      f.nextElement n.lists g ls) (hlength : ls.length = n.lists.length) :
    f.Brings [n] (g.setElement f.nextElement (n.element ls)) [f.nextElement] := by
  have halloc : f.Adds (f.allocElement default).1 := .allocElement f rfl
  have hhas : (f.allocElement default).1.HasElement f.nextElement := by
    simp [HasElement, nextElement]
  have hg : g.HasElement f.nextElement := hls.adds.hasElement hhas
  have hlists : (n.element ls).lists = ls := Node.lists_element hlength
  refine ⟨?_, .singleton ?_ ?_, by simpa using not_hasElement_nextElement, fun d hd => ?_⟩
  · refine (halloc.trans hls.adds).setElement not_hasElement_nextElement hg ?_ ?_
    · rw [hlists]
      exact hls.nodup
    · rw [hlists]
      exact fun l hl => (hls.fresh l hl).imp_left (mt halloc.hasList)
  · simpa [HasElement, Formula.setElement] using hg
  · rw [parent_setElement, hls.adds.parent hhas, parent_allocElement, Formula.parent,
      elementSlot_of_not_hasElement not_hasElement_nextElement]
  · have hread := Node.toNode_element (hls.reads d hd)
    rw [List.map_singleton, spelled, element_setElement, if_pos ⟨rfl, hg⟩]
    refine congrArg (fun n => [n]) (Eq.trans (Element.toNode_congr fun l hl => ?_) hread)
    rw [hlists] at hl
    obtain ⟨hnew, hgl, -⟩ := hls.fresh l hl
    refine hls.adds.snapshotWithin (fun e he _ => ?_) (fun _ _ _ => rfl) ⟨hnew, hgl⟩
    -- The element has its slot already, so it is not in its own lists.
    rw [element_setElement, if_neg]
    rintro ⟨rfl, -⟩
    exact he hhas

theorem Brings.cons {n : Node} (hn : f.Brings [n] g [e]) (hns : g.Brings ns h es) :
    f.Brings (n :: ns) h (e :: es) := by
  have he : g.HasElement e := hn.loose.hasElement e (by simp)
  have hne : e ∉ es := fun hc => hns.fresh e hc he
  have hnew : ¬f.HasElement e := hn.fresh e (by simp)
  have hgrown := hn.adds.size_listSlots_le
  have hsize := hns.adds.size_listSlots_le
  refine ⟨hn.adds.trans hns.adds, ⟨List.nodup_cons.mpr ⟨hne, hns.loose.nodup⟩, ?_, ?_⟩, ?_,
    fun d hd => ?_⟩
  · simpa using ⟨hns.adds.hasElement he, hns.loose.hasElement⟩
  · simpa using ⟨by rw [hns.adds.parent he, hn.loose.parent e (by simp)], hns.loose.parent⟩
  · simpa using ⟨hnew, fun e' he' => mt hn.adds.hasElement (hns.fresh e' he')⟩
  · have hhead : g.spelled d e = n.upright := by
      simpa [Node.uprightAll_eq_map] using hn.reads d (by omega)
    have hspelled : h.spelled d e = g.spelled d e := hn.adds.spelled
      (fun _ => hns.adds.element) (fun _ => hns.adds.elements) hnew he
    rw [List.map_cons, hspelled, hhead, hns.reads d (by omega)]
    rfl

/-- Planting brings new content that reads as the node, and as the nodes. -/
theorem brings : (∀ (n : Node) (f : Formula), f.Brings [n] (f.plant n).1 [(f.plant n).2]) ∧
    ∀ (ns : List Node) (f : Formula), f.Brings ns (f.plantAll ns).1 (f.plantAll ns).2 := by
  refine Node.induction ?node ?nil ?cons
  case node =>
    intro n ih f
    rw [plant_eq]
    exact (brings_plantLists ih _ _).setElement (length_plantLists _)
  case nil => exact fun f => ⟨.refl f, .nil, by simp [plantAll], fun _ _ => rfl⟩
  case cons => exact fun n ns hn hns f => (hn f).cons (hns _)

/-! ## What an element holds -/

/-- The list is one of the element, or lies inside one at some depth. -/
def Inside (f : Formula) (e : ElementId) (l : ListId) : Prop :=
  ∃ i ∈ f.listsOf e, ∃ n, f.Below n i l

/-- The links of an element agree down to its innermost lists: all that is in these stands where they
have it, and every element owns its lists. -/
structure Orderly (f : Formula) (e : ElementId) : Prop where
  whole : f.Whole e
  stands : ∀ {l i e'}, f.Inside e l → (f.elements l)[i]? = some e' →
    f.parent e' = some l ∧ f.position e' = i ∧ f.Whole e'

/-- All lists inside a new element are new. -/
theorem Adds.inside (hg : f.Adds g) (he : ¬f.HasElement e) (hl : g.Inside e l) :
    ¬f.HasList l ∧ g.HasList l := by
  obtain ⟨i, hi, n, hn⟩ := hl
  have houter := hg.hasLists he hi
  clear hi
  induction hn with
  | here => exact houter
  | inside _ he' hi ih =>
    obtain ⟨k, hk⟩ := List.mem_iff_getElem?.mp he'
    exact hg.hasLists (hg.stands (ih houter).1 hk).1 hi

theorem Adds.orderly (hg : f.Adds g) (he : ¬f.HasElement e) : g.Orderly e where
  whole := hg.whole he
  stands hl hi := by
    obtain ⟨hnew, -, hparent, hposition⟩ := hg.stands (hg.inside he hl).1 hi
    exact ⟨hparent, hposition, hg.whole hnew⟩

/-- The second formula is the first one with a new element that stands nowhere, is in order down to
its innermost lists, which are new as well, and reads as the node out of italics. -/
structure Bears (f : Formula) (n : Node) (g : Formula) (e : ElementId) : Prop where
  frames : f.Frames g
  fresh : ¬f.HasElement e
  hasElement : g.HasElement e
  parent : g.parent e = none
  orderly : g.Orderly e
  inside : ∀ l, g.Inside e l → ¬f.HasList l ∧ ∀ e' ∈ g.elements l, ¬f.HasElement e'
  snapshot : g.snapshot e = n.upright

theorem bears_plant (f : Formula) (n : Node) : f.Bears n (f.plant n).1 (f.plant n).2 := by
  obtain ⟨hadds, hloose, hfresh, hreads⟩ := brings.1 n f
  have hnew := hfresh _ (List.mem_singleton_self _)
  refine ⟨hadds.toFrames, hnew, hloose.hasElement _ (by simp), hloose.parent _ (by simp),
    hadds.orderly hnew, fun l hl => ?_, ?_⟩
  · obtain ⟨hlist, -⟩ := hadds.inside hnew hl
    refine ⟨hlist, fun e' he' => ?_⟩
    obtain ⟨i, hi⟩ := List.mem_iff_getElem?.mp he'
    exact (hadds.stands hlist hi).1
  · exact List.singleton_inj.mp (hreads _ (Nat.le_add_left _ _))

end Formula

end FormulaEditor
