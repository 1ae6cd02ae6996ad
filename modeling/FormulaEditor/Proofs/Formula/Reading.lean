import FormulaEditor.Formula.Path
import Mathlib.Data.List.Nodup

/-!
# Reading a formula after a change

What the slots of a formula hold after each of its primitive changes. The lemmas come one for each
change and each of the four things that are read: where an element stands, what it is, what a list
holds, and whose it is.
-/

namespace FormulaEditor.Formula

variable {f : Formula} {e e' : ElementId} {l l' : ListId}

/-- The handle belongs to a slot for elements. -/
def HasElement (f : Formula) (e : ElementId) : Prop :=
  e.index < f.elementSlots.size

/-- The handle belongs to a slot for lists. -/
def HasList (f : Formula) (l : ListId) : Prop :=
  l.index < f.listSlots.size

instance : Decidable (f.HasElement e) :=
  inferInstanceAs (Decidable (_ < _))

instance : Decidable (f.HasList l) :=
  inferInstanceAs (Decidable (_ < _))

theorem elementSlot_of_not_hasElement (h : ¬f.HasElement e) :
    f.elementSlot e = ⟨none, 0, .atom ""⟩ := by
  have : f.elementSlots[e.index]? = none := Array.getElem?_eq_none (Nat.le_of_not_lt h)
  simp [elementSlot, this]

theorem listSlot_of_not_hasList (h : ¬f.HasList l) : f.listSlot l = ⟨none, []⟩ := by
  have : f.listSlots[l.index]? = none := Array.getElem?_eq_none (Nat.le_of_not_lt h)
  simp [listSlot, this]

theorem hasElement_of_parent (h : f.parent e = some l) : f.HasElement e := by
  by_contra hn
  simp [parent, elementSlot_of_not_hasElement hn] at h

theorem hasElement_of_mem_listsOf (h : l ∈ f.listsOf e) : f.HasElement e := by
  by_contra hn
  simp [listsOf, element, elementSlot_of_not_hasElement hn, Element.lists] at h

theorem hasList_of_owner (h : f.owner l = some e) : f.HasList l := by
  by_contra hn
  simp [owner, listSlot_of_not_hasList hn] at h

theorem hasList_of_mem (h : e ∈ f.elements l) : f.HasList l := by
  by_contra hn
  simp [elements, listSlot_of_not_hasList hn] at h

/-! ## One slot -/

theorem elementSlot_modifyElement (change : ElementSlot → ElementSlot) :
    (f.modifyElement e change).elementSlot e' =
      if e = e' ∧ f.HasElement e then change (f.elementSlot e) else f.elementSlot e' := by
  obtain ⟨i⟩ := e
  obtain ⟨j⟩ := e'
  by_cases hij : i = j
  · subst hij
    by_cases hi : i < f.elementSlots.size
    · simp [elementSlot, modifyElement, HasElement, Array.getElem_modify, hi]
    · simp [elementSlot, modifyElement, HasElement, hi]
  · simp [elementSlot, modifyElement, Array.getElem?_modify, hij]

theorem listSlot_modifyList (change : ListSlot → ListSlot) :
    (f.modifyList l change).listSlot l' =
      if l = l' ∧ f.HasList l then change (f.listSlot l) else f.listSlot l' := by
  obtain ⟨i⟩ := l
  obtain ⟨j⟩ := l'
  by_cases hij : i = j
  · subst hij
    by_cases hi : i < f.listSlots.size
    · simp [listSlot, modifyList, HasList, Array.getElem_modify, hi]
    · simp [listSlot, modifyList, HasList, hi]
  · simp [listSlot, modifyList, Array.getElem?_modify, hij]

@[simp] theorem listSlot_modifyElement (change : ElementSlot → ElementSlot) :
    (f.modifyElement e change).listSlot l = f.listSlot l := rfl

@[simp] theorem elementSlot_modifyList (change : ListSlot → ListSlot) :
    (f.modifyList l change).elementSlot e = f.elementSlot e := rfl

@[simp] theorem root_modifyElement (change : ElementSlot → ElementSlot) :
    (f.modifyElement e change).root = f.root := rfl

@[simp] theorem root_modifyList (change : ListSlot → ListSlot) :
    (f.modifyList l change).root = f.root := rfl

@[simp] theorem size_elementSlots_modifyElement (change : ElementSlot → ElementSlot) :
    (f.modifyElement e change).elementSlots.size = f.elementSlots.size := by
  simp [modifyElement]

@[simp] theorem size_listSlots_modifyList (change : ListSlot → ListSlot) :
    (f.modifyList l change).listSlots.size = f.listSlots.size := by
  simp [modifyList]

/-! ## Detaching, disowning, exchanging -/

theorem parent_detach :
    (f.detach e).parent e' = if e = e' then none else f.parent e' := by
  by_cases h : e = e'
  · subst h
    by_cases hf : f.HasElement e
    · simp [parent, detach, elementSlot_modifyElement, hf]
    · simp [parent, detach, elementSlot_modifyElement, hf, elementSlot_of_not_hasElement hf]
  · simp [parent, detach, elementSlot_modifyElement, h]

@[simp] theorem position_detach : (f.detach e).position e' = f.position e' := by
  unfold position detach
  rw [elementSlot_modifyElement]
  split
  · rename_i h
    rw [h.1]
  · rfl

@[simp] theorem element_detach : (f.detach e).element e' = f.element e' := by
  unfold element detach
  rw [elementSlot_modifyElement]
  split
  · rename_i h
    rw [h.1]
  · rfl

@[simp] theorem listSlot_detach : (f.detach e).listSlot l = f.listSlot l := rfl

theorem owner_disown : (f.disown l).owner l' = if l = l' then none else f.owner l' := by
  by_cases h : l = l'
  · subst h
    by_cases hf : f.HasList l
    · simp [owner, disown, listSlot_modifyList, hf]
    · simp [owner, disown, listSlot_modifyList, hf, listSlot_of_not_hasList hf]
  · simp [owner, disown, listSlot_modifyList, h]

@[simp] theorem elements_disown : (f.disown l).elements l' = f.elements l' := by
  unfold elements disown
  rw [listSlot_modifyList]
  split
  · rename_i h
    rw [h.1]
  · rfl

@[simp] theorem elementSlot_disown : (f.disown l).elementSlot e = f.elementSlot e := rfl

@[simp] theorem element_disown : (f.disown l).element e = f.element e := rfl

@[simp] theorem parent_disown : (f.disown l).parent e = f.parent e := rfl

@[simp] theorem root_disown : (f.disown l).root = f.root := rfl

@[simp] theorem size_elementSlots_disown :
    (f.disown l).elementSlots.size = f.elementSlots.size := rfl

theorem element_setElement (element : Element) :
    (f.setElement e element).element e' =
      if e = e' ∧ f.HasElement e then element else f.element e' := by
  unfold Formula.element setElement
  rw [elementSlot_modifyElement]
  split <;> rfl

@[simp] theorem parent_setElement (element : Element) :
    (f.setElement e element).parent e' = f.parent e' := by
  unfold parent setElement
  rw [elementSlot_modifyElement]
  split
  · rename_i h
    rw [h.1]
  · rfl

@[simp] theorem position_setElement (element : Element) :
    (f.setElement e element).position e' = f.position e' := by
  unfold position setElement
  rw [elementSlot_modifyElement]
  split
  · rename_i h
    rw [h.1]
  · rfl

@[simp] theorem listSlot_setElement (element : Element) :
    (f.setElement e element).listSlot l = f.listSlot l := rfl

@[simp] theorem length_setElement (element : Element) :
    (f.setElement e element).length l = f.length l := rfl

/-! ## Telling elements where they stand -/

/-- Writes down, for elements of a list from index `k` on, where they stand. -/
def placeAll (f : Formula) (l : ListId) (k : Nat) (es : List ElementId) : Formula :=
  (es.zipIdx k).foldl
    (fun f (e, i) => f.modifyElement e fun slot => { slot with parent := some l, position := i }) f

theorem reindex_eq_placeAll : f.reindex l = f.placeAll l 0 (f.elements l) := rfl

theorem placeAll_cons {k : Nat} {es : List ElementId} :
    f.placeAll l k (e :: es) =
      (f.modifyElement e fun slot => { slot with parent := some l, position := k }).placeAll l
        (k + 1) es := rfl

@[simp] theorem listSlots_placeAll (k : Nat) (es : List ElementId) :
    (f.placeAll l k es).listSlots = f.listSlots := by
  induction es generalizing f k with
  | nil => rfl
  | cons e es ih => rw [placeAll_cons, ih]; rfl

@[simp] theorem root_placeAll (k : Nat) (es : List ElementId) :
    (f.placeAll l k es).root = f.root := by
  induction es generalizing f k with
  | nil => rfl
  | cons e es ih => rw [placeAll_cons, ih]; rfl

@[simp] theorem size_elementSlots_placeAll (k : Nat) (es : List ElementId) :
    (f.placeAll l k es).elementSlots.size = f.elementSlots.size := by
  induction es generalizing f k with
  | nil => rfl
  | cons e es ih => rw [placeAll_cons, ih, size_elementSlots_modifyElement]

@[simp] theorem element_placeAll (k : Nat) (es : List ElementId) :
    (f.placeAll l k es).element e = f.element e := by
  induction es generalizing f k with
  | nil => rfl
  | cons e' es ih =>
    rw [placeAll_cons, ih]
    unfold element
    rw [elementSlot_modifyElement]
    split
    · rename_i h
      rw [h.1]
    · rfl

theorem elementSlot_placeAll_of_not_mem {k : Nat} {es : List ElementId} (h : e ∉ es) :
    (f.placeAll l k es).elementSlot e = f.elementSlot e := by
  induction es generalizing f k with
  | nil => rfl
  | cons e' es ih =>
    obtain ⟨hne, hes⟩ := not_or.mp (mt List.mem_cons.mpr h)
    rw [placeAll_cons, ih hes, elementSlot_modifyElement, if_neg]
    rintro ⟨rfl, -⟩
    exact hne rfl

theorem parent_placeAll_of_mem {k : Nat} {es : List ElementId} (h : e ∈ es)
    (hf : f.HasElement e) : (f.placeAll l k es).parent e = some l := by
  induction es generalizing f k with
  | nil => cases h
  | cons e' es ih =>
    rw [placeAll_cons]
    by_cases hes : e ∈ es
    · exact ih hes (by simpa [HasElement] using hf)
    · obtain rfl : e = e' := (List.mem_cons.mp h).resolve_right hes
      unfold parent
      rw [elementSlot_placeAll_of_not_mem hes, elementSlot_modifyElement, if_pos ⟨rfl, hf⟩]

theorem position_placeAll {k i : Nat} {es : List ElementId} (hd : es.Nodup)
    (h : es[i]? = some e) (hf : f.HasElement e) :
    (f.placeAll l k es).position e = k + i := by
  induction es generalizing f k i with
  | nil => simp at h
  | cons e' es ih =>
    obtain ⟨hne, hd⟩ := List.nodup_cons.mp hd
    rw [placeAll_cons]
    cases i with
    | zero =>
      obtain rfl : e' = e := by simpa using h
      unfold position
      rw [elementSlot_placeAll_of_not_mem hne, elementSlot_modifyElement, if_pos ⟨rfl, hf⟩]
      rfl
    | succ i =>
      rw [ih hd (by simpa using h) (by simpa [HasElement] using hf)]
      omega

@[simp] theorem listSlots_reindex : (f.reindex l).listSlots = f.listSlots :=
  listSlots_placeAll ..

@[simp] theorem root_reindex : (f.reindex l).root = f.root :=
  root_placeAll ..

@[simp] theorem size_elementSlots_reindex :
    (f.reindex l).elementSlots.size = f.elementSlots.size :=
  size_elementSlots_placeAll ..

@[simp] theorem element_reindex : (f.reindex l).element e = f.element e :=
  element_placeAll ..

@[simp] theorem elements_reindex : (f.reindex l).elements l' = f.elements l' := by
  simp [elements, listSlot]

@[simp] theorem owner_reindex : (f.reindex l).owner l' = f.owner l' := by
  simp [owner, listSlot]

theorem parent_reindex (hf : ∀ e ∈ f.elements l, f.HasElement e) :
    (f.reindex l).parent e = if e ∈ f.elements l then some l else f.parent e := by
  rw [reindex_eq_placeAll]
  split
  · rename_i h
    exact parent_placeAll_of_mem h (hf e h)
  · rename_i h
    unfold parent
    rw [elementSlot_placeAll_of_not_mem h]

theorem position_reindex_of_not_mem (h : e ∉ f.elements l) :
    (f.reindex l).position e = f.position e := by
  unfold position
  rw [reindex_eq_placeAll, elementSlot_placeAll_of_not_mem h]

theorem position_reindex {i : Nat} (hd : (f.elements l).Nodup)
    (h : (f.elements l)[i]? = some e) (hf : f.HasElement e) :
    (f.reindex l).position e = i := by
  rw [reindex_eq_placeAll, position_placeAll hd h hf, Nat.zero_add]

/-! ## Replacing a run of elements -/

/-- The elements of a range of a list. -/
def range (f : Formula) (l : ListId) (start stop : Nat) : List ElementId :=
  ((f.elements l).drop start).take (stop - start)

/-- The elements of a list with others in the place of a range. -/
def replaced (f : Formula) (l : ListId) (start stop : Nat) (replacement : List ElementId) :
    List ElementId :=
  (f.elements l).take start ++ replacement ++ (f.elements l).drop stop

section Detaching

variable (es : List ElementId)

@[simp] theorem listSlots_foldl_detach : (es.foldl detach f).listSlots = f.listSlots := by
  induction es generalizing f with
  | nil => rfl
  | cons e es ih => rw [List.foldl_cons, ih]; rfl

@[simp] theorem root_foldl_detach : (es.foldl detach f).root = f.root := by
  induction es generalizing f with
  | nil => rfl
  | cons e es ih => rw [List.foldl_cons, ih]; rfl

@[simp] theorem size_elementSlots_foldl_detach :
    (es.foldl detach f).elementSlots.size = f.elementSlots.size := by
  induction es generalizing f with
  | nil => rfl
  | cons e es ih => rw [List.foldl_cons, ih, detach, size_elementSlots_modifyElement]

@[simp] theorem element_foldl_detach : (es.foldl detach f).element e = f.element e := by
  induction es generalizing f with
  | nil => rfl
  | cons e' es ih => rw [List.foldl_cons, ih, element_detach]

@[simp] theorem position_foldl_detach : (es.foldl detach f).position e = f.position e := by
  induction es generalizing f with
  | nil => rfl
  | cons e' es ih => rw [List.foldl_cons, ih, position_detach]

theorem parent_foldl_detach :
    (es.foldl detach f).parent e = if e ∈ es then none else f.parent e := by
  induction es generalizing f with
  | nil => rfl
  | cons e' es ih =>
    rw [List.foldl_cons, ih, parent_detach]
    by_cases h : e ∈ es
    · simp [h]
    · by_cases he : e' = e
      · simp [he]
      · simp [h, he, Ne.symm he]

end Detaching

section Replacing

variable {start stop : Nat} {replacement : List ElementId}

/-- The state in which the list is changed, but no element knows yet. -/
def replaceOnly (f : Formula) (l : ListId) (start stop : Nat) (replacement : List ElementId) :
    Formula :=
  (f.range l start stop).foldl detach
    (f.modifyList l fun slot => { slot with elements := f.replaced l start stop replacement })

theorem replaceRange_eq : f.replaceRange l start stop replacement =
    ((f.replaceOnly l start stop replacement).reindex l, f.range l start stop) := rfl

@[simp] theorem replaceRange_snd :
    (f.replaceRange l start stop replacement).2 = f.range l start stop := rfl

theorem elements_replaceOnly (hl : f.HasList l) :
    (f.replaceOnly l start stop replacement).elements l' =
      if l = l' then f.replaced l start stop replacement else f.elements l' := by
  simp only [replaceOnly, elements, listSlot, listSlots_foldl_detach]
  change (listSlot (f.modifyList l _) l').elements = _
  rw [listSlot_modifyList]
  by_cases h : l = l'
  · simp [h, h ▸ hl]
  · simp [h, listSlot]

theorem elements_replaceOnly_self (f : Formula) (hl : f.HasList l) (start stop : Nat)
    (replacement : List ElementId) :
    (f.replaceOnly l start stop replacement).elements l =
      f.replaced l start stop replacement := by
  rw [elements_replaceOnly hl, if_pos rfl]

theorem owner_replaceOnly :
    (f.replaceOnly l start stop replacement).owner l' = f.owner l' := by
  simp only [replaceOnly, owner, listSlot, listSlots_foldl_detach]
  change (listSlot (f.modifyList l _) l').owner = (listSlot f l').owner
  rw [listSlot_modifyList]
  split
  · rename_i h
    rw [h.1]
  · rfl

@[simp] theorem root_replaceRange :
    (f.replaceRange l start stop replacement).1.root = f.root := by
  simp [replaceRange_eq, replaceOnly]

@[simp] theorem size_elementSlots_replaceRange :
    (f.replaceRange l start stop replacement).1.elementSlots.size = f.elementSlots.size := by
  simp [replaceRange_eq, replaceOnly, modifyList]

@[simp] theorem size_listSlots_replaceRange :
    (f.replaceRange l start stop replacement).1.listSlots.size = f.listSlots.size := by
  simp [replaceRange_eq, replaceOnly]

@[simp] theorem element_replaceRange :
    (f.replaceRange l start stop replacement).1.element e = f.element e := by
  simp only [replaceRange_eq, element_reindex, replaceOnly, element_foldl_detach]
  rfl

@[simp] theorem listsOf_replaceRange :
    (f.replaceRange l start stop replacement).1.listsOf e = f.listsOf e := by
  simp [listsOf]

@[simp] theorem owner_replaceRange :
    (f.replaceRange l start stop replacement).1.owner l' = f.owner l' := by
  rw [replaceRange_eq, owner_reindex, owner_replaceOnly]

theorem elements_replaceRange (hl : f.HasList l) :
    (f.replaceRange l start stop replacement).1.elements l' =
      if l = l' then f.replaced l start stop replacement else f.elements l' := by
  rw [replaceRange_eq, elements_reindex, elements_replaceOnly hl]

theorem parent_replaceRange (hl : f.HasList l)
    (hf : ∀ e ∈ f.replaced l start stop replacement, f.HasElement e) :
    (f.replaceRange l start stop replacement).1.parent e =
      if e ∈ f.replaced l start stop replacement then some l
      else if e ∈ f.range l start stop then none else f.parent e := by
  have hes := f.elements_replaceOnly_self hl start stop replacement
  rw [replaceRange_eq, parent_reindex, hes, replaceOnly, parent_foldl_detach]
  · rfl
  · intro e he
    rw [hes] at he
    simpa [HasElement, replaceOnly, modifyList] using hf e he

theorem position_replaceRange {i : Nat} (hl : f.HasList l)
    (hd : (f.replaced l start stop replacement).Nodup)
    (h : (f.replaced l start stop replacement)[i]? = some e) (hf : f.HasElement e) :
    (f.replaceRange l start stop replacement).1.position e = i := by
  have hes := f.elements_replaceOnly_self hl start stop replacement
  rw [replaceRange_eq]
  refine position_reindex (hes ▸ hd) (hes ▸ h) ?_
  simpa [HasElement, replaceOnly, modifyList] using hf

theorem position_replaceRange_of_not_mem (hl : f.HasList l)
    (h : e ∉ f.replaced l start stop replacement) :
    (f.replaceRange l start stop replacement).1.position e = f.position e := by
  have hes := f.elements_replaceOnly_self hl start stop replacement
  rw [replaceRange_eq, position_reindex_of_not_mem (hes ▸ h), replaceOnly, position_foldl_detach]
  rfl

end Replacing

/-! ## New slots -/

/-- The handle that the next element gets. -/
def nextElement (f : Formula) : ElementId :=
  ⟨f.elementSlots.size⟩

/-- The handle that the next list gets. -/
def nextList (f : Formula) : ListId :=
  ⟨f.listSlots.size⟩

theorem not_hasElement_nextElement : ¬f.HasElement f.nextElement :=
  Nat.lt_irrefl _

theorem not_hasList_nextList : ¬f.HasList f.nextList :=
  Nat.lt_irrefl _

section Allocating

variable (x : Element)

@[simp] theorem allocElement_snd : (f.allocElement x).2 = f.nextElement := rfl

theorem elementSlot_allocElement :
    (f.allocElement x).1.elementSlot e = if f.nextElement = e then ⟨none, 0, x⟩ else f.elementSlot e := by
  obtain ⟨i⟩ := e
  by_cases h : f.elementSlots.size = i
  · subst h
    simp [allocElement, elementSlot, nextElement]
  · simp [allocElement, elementSlot, nextElement, Array.getElem?_push, h, Ne.symm h]

@[simp] theorem listSlot_allocElement : (f.allocElement x).1.listSlot l = f.listSlot l := rfl

@[simp] theorem root_allocElement : (f.allocElement x).1.root = f.root := rfl

@[simp] theorem size_elementSlots_allocElement :
    (f.allocElement x).1.elementSlots.size = f.elementSlots.size + 1 := by
  simp [allocElement]

@[simp] theorem listSlots_allocElement :
    (f.allocElement x).1.listSlots = f.listSlots := rfl

@[simp] theorem parent_allocElement : (f.allocElement x).1.parent e = f.parent e := by
  unfold parent
  rw [elementSlot_allocElement]
  split
  · rename_i h
    rw [← h, elementSlot_of_not_hasElement not_hasElement_nextElement]
  · rfl

@[simp] theorem position_allocElement : (f.allocElement x).1.position e = f.position e := by
  unfold position
  rw [elementSlot_allocElement]
  split
  · rename_i h
    rw [← h, elementSlot_of_not_hasElement not_hasElement_nextElement]
  · rfl

theorem element_allocElement :
    (f.allocElement x).1.element e = if f.nextElement = e then x else f.element e := by
  unfold element
  rw [elementSlot_allocElement]
  split <;> rfl

/-- A new element may be put in as something else at first. -/
theorem setElement_allocElement (y : Element) :
    (f.allocElement x).1.setElement f.nextElement y = (f.allocElement y).1 := by
  simp only [setElement, modifyElement, allocElement, nextElement, Formula.mk.injEq, and_true]
  apply Array.ext_getElem?
  intro i
  by_cases hi : f.elementSlots.size = i
  · subst hi
    simp [Array.getElem_modify]
  · simp [Array.getElem?_modify, Array.getElem?_push, hi, Ne.symm hi]

end Allocating

section Adopting

variable {es : List ElementId}

@[simp] theorem adoptList_snd : (f.adoptList e es).2 = f.nextList := rfl

/-- The state in which the new list is there, but no element knows yet. -/
def adoptOnly (f : Formula) (owner : ElementId) (es : List ElementId) : Formula :=
  { f with listSlots := f.listSlots.push ⟨some owner, es⟩ }

theorem adoptList_eq : f.adoptList e es = ((f.adoptOnly e es).reindex f.nextList, f.nextList) := by
  have h : (f.listSlots.push ⟨some e, []⟩).modify f.listSlots.size
      (fun slot => { slot with elements := es }) = f.listSlots.push ⟨some e, es⟩ := by
    apply Array.ext_getElem?
    intro i
    by_cases hi : f.listSlots.size = i
    · subst hi
      simp [Array.getElem_modify]
    · simp [Array.getElem?_modify, Array.getElem?_push, hi, Ne.symm hi]
  simp only [adoptList, allocList, modifyList, h]
  rfl

theorem listSlot_adoptOnly : (f.adoptOnly e es).listSlot l =
    if f.nextList = l then ⟨some e, es⟩ else f.listSlot l := by
  obtain ⟨i⟩ := l
  by_cases h : f.listSlots.size = i
  · subst h
    simp [adoptOnly, listSlot, nextList]
  · simp [adoptOnly, listSlot, nextList, Array.getElem?_push, h, Ne.symm h]

theorem elements_adoptOnly : (f.adoptOnly e es).elements f.nextList = es := by
  rw [elements, listSlot_adoptOnly, if_pos rfl]

@[simp] theorem root_adoptList : (f.adoptList e es).1.root = f.root := by
  simp [adoptList_eq, adoptOnly]

@[simp] theorem size_elementSlots_adoptList :
    (f.adoptList e es).1.elementSlots.size = f.elementSlots.size := by
  simp [adoptList_eq, adoptOnly]

@[simp] theorem size_listSlots_adoptList :
    (f.adoptList e es).1.listSlots.size = f.listSlots.size + 1 := by
  simp [adoptList_eq, adoptOnly]

@[simp] theorem element_adoptList : (f.adoptList e es).1.element e' = f.element e' := by
  simp only [adoptList_eq, element_reindex]
  rfl

@[simp] theorem listsOf_adoptList : (f.adoptList e es).1.listsOf e' = f.listsOf e' := by
  simp [listsOf]

theorem elements_adoptList : (f.adoptList e es).1.elements l =
    if f.nextList = l then es else f.elements l := by
  rw [adoptList_eq, elements_reindex, elements, listSlot_adoptOnly]
  split <;> rfl

theorem owner_adoptList : (f.adoptList e es).1.owner l =
    if f.nextList = l then some e else f.owner l := by
  rw [adoptList_eq, owner_reindex, owner, listSlot_adoptOnly]
  split <;> rfl

theorem parent_adoptList (hf : ∀ e ∈ es, f.HasElement e) : (f.adoptList e es).1.parent e' =
    if e' ∈ es then some f.nextList else f.parent e' := by
  rw [adoptList_eq, parent_reindex (by rwa [elements_adoptOnly]), elements_adoptOnly]
  rfl

theorem position_adoptList {i : Nat} (hd : es.Nodup) (h : es[i]? = some e')
    (hf : f.HasElement e') : (f.adoptList e es).1.position e' = i := by
  rw [adoptList_eq]
  refine position_reindex ?_ ?_ hf
  · rwa [elements_adoptOnly]
  · rwa [elements_adoptOnly]

theorem position_adoptList_of_not_mem (h : e' ∉ es) :
    (f.adoptList e es).1.position e' = f.position e' := by
  rw [adoptList_eq, position_reindex_of_not_mem (by rwa [elements_adoptOnly])]
  rfl

end Adopting

end FormulaEditor.Formula
