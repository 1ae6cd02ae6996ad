import FormulaEditor.Document.Basic
import FormulaEditor.Proofs.Formula.Planting

/-!
# Formulas inside formulas

A formula that has dropped what edits removed and one that still stores it are edited alike, although
their handles differ. `Embeds` says that the second formula stores all slots of the first one under
other handles, and that the slots which the two allocate next correspond. Nothing is said of further
slots in the second formula. Each primitive change of the two keeps this, so the handles that
correspond in the beginning are the ones that correspond in the end.
-/

namespace FormulaEditor

/-- Handles in place of others, no two of them the same. -/
structure Handles where
  list : ListId → ListId
  element : ElementId → ElementId
  list_inj : ∀ {l m}, list l = list m → l = m
  element_inj : ∀ {e d}, element e = element d → e = d

/-! ## Elements under other handles -/

namespace Element

/-- The element with other handles for its lists. -/
def rename (ρ : ListId → ListId) : Element → Element
  | frac numerator denominator => frac (ρ numerator) (ρ denominator)
  | radical index radicand => radical (index.map ρ) (ρ radicand)
  | scripts exponent subscript acceptor =>
    scripts (exponent.map ρ) (subscript.map ρ) (acceptor.map ρ)
  | wrapped wrap argument => wrapped wrap (ρ argument)
  | big op top bottom => big op (ρ top) (ρ bottom)
  | leaf => leaf

variable {ρ : ListId → ListId} {x : Element} {d : Direction}

@[simp] theorem lists_rename : (x.rename ρ).lists = x.lists.map ρ := by
  rcases x with _ | _ | _ | _ | _ | ⟨_ | _, _⟩ | ⟨_ | _, _ | _, _⟩ | _ | _ <;> rfl

@[simp] theorem kind_rename : (x.rename ρ).kind = x.kind := by
  cases x <;> rfl

@[simp] theorem acceptor?_rename : (x.rename ρ).acceptor? = x.acceptor?.map ρ := by
  cases x <;> rfl

@[simp] theorem opening?_rename : (x.rename ρ).opening? = x.opening?.map ρ := by
  cases x <;> rfl

@[simp] theorem boundary?_rename : (x.rename ρ).boundary? d = (x.boundary? d).map ρ := by
  unfold boundary?
  rw [lists_rename]
  split <;> simp

@[simp] theorem toNode_rename (read : ListId → List Node) :
    (x.rename ρ).toNode read = x.toNode (read ∘ ρ) := by
  cases x <;> simp [rename, toNode]

end Element

/-- The element for a node under other handles for its lists. -/
theorem Node.element_map (n : Node) (ls : List ListId) (ρ : ListId → ListId) :
    n.element (ls.map ρ) = (n.element ls).rename ρ := by
  rcases n with _ | _ | _ | _ | _ | ⟨_ | _, _⟩ | ⟨_ | _, _ | _⟩ | _ | _ <;>
    rcases ls with _ | ⟨_, _ | ⟨_, _ | ⟨_, _⟩⟩⟩ <;> rfl

theorem idxOf?_map {α β : Type} [BEq α] [LawfulBEq α] [BEq β] [LawfulBEq β] {k : α → β}
    (hk : ∀ {a b}, k a = k b → a = b) (a : α) (as : List α) :
    (as.map k).idxOf? (k a) = as.idxOf? a := by
  induction as with
  | nil => rfl
  | cons b as ih =>
    have hiff : (k b == k a) = (b == a) := by
      rw [Bool.eq_iff_iff, beq_iff_eq, beq_iff_eq]
      exact ⟨hk, congrArg k⟩
    rw [List.map_cons, List.idxOf?_cons, List.idxOf?_cons, hiff, ih]

namespace Handles

variable (r : Handles)

/-- An element's slot under other handles. -/
def elementSlot (slot : ElementSlot) : ElementSlot :=
  ⟨slot.parent.map r.list, slot.position, slot.element.rename r.list⟩

/-- A list's slot under other handles. -/
def listSlot (slot : ListSlot) : ListSlot :=
  ⟨slot.owner.map r.element, slot.elements.map r.element⟩

/-- A place under other handles. -/
def place (p : Place) : Place :=
  ⟨r.list p.list, p.pos⟩

/-- The second formula stores the slots of the first one under other handles, and the next slots of
the two correspond. -/
structure Embeds (r : Handles) (f g : Formula) : Prop where
  elementSlot : ∀ e, g.elementSlots[(r.element e).index]? =
    f.elementSlots[e.index]?.map r.elementSlot
  listSlot : ∀ l, g.listSlots[(r.list l).index]? = f.listSlots[l.index]?.map r.listSlot
  root : g.root = r.list f.root
  nextElement : ∀ k, r.element ⟨f.elementSlots.size + k⟩ = ⟨g.elementSlots.size + k⟩
  nextList : ∀ k, r.list ⟨f.listSlots.size + k⟩ = ⟨g.listSlots.size + k⟩

variable {r : Handles} {l m : ListId} {e d : ElementId}

theorem list_eq_iff : r.list l = r.list m ↔ l = m :=
  ⟨r.list_inj, congrArg r.list⟩

theorem element_eq_iff : r.element e = r.element d ↔ e = d :=
  ⟨r.element_inj, congrArg r.element⟩

theorem index_list_eq_iff : (r.list l).index = (r.list m).index ↔ l.index = m.index := by
  rw [← ListId.mk.injEq, ← ListId.mk.injEq]
  exact list_eq_iff

theorem index_element_eq_iff : (r.element e).index = (r.element d).index ↔ e.index = d.index := by
  rw [← ElementId.mk.injEq, ← ElementId.mk.injEq]
  exact element_eq_iff

namespace Embeds

open Formula

variable {f g : Formula} {es : List ElementId} {start stop : Nat} {x : Element}
  (h : r.Embeds f g)

include h

/-! ## Reading -/

theorem elementSlot_eq (e : ElementId) : g.elementSlot (r.element e) = r.elementSlot (f.elementSlot e) := by
  rw [Formula.elementSlot, Formula.elementSlot, h.elementSlot]
  cases f.elementSlots[e.index]? <;> rfl

theorem listSlot_eq (l : ListId) : g.listSlot (r.list l) = r.listSlot (f.listSlot l) := by
  rw [Formula.listSlot, Formula.listSlot, h.listSlot]
  cases f.listSlots[l.index]? <;> rfl

theorem element (e : ElementId) : g.element (r.element e) = (f.element e).rename r.list :=
  congrArg ElementSlot.element (h.elementSlot_eq e)

theorem parent (e : ElementId) : g.parent (r.element e) = (f.parent e).map r.list :=
  congrArg ElementSlot.parent (h.elementSlot_eq e)

theorem position (e : ElementId) : g.position (r.element e) = f.position e := by
  rw [Formula.position, h.elementSlot_eq]
  rfl

theorem elements (l : ListId) : g.elements (r.list l) = (f.elements l).map r.element :=
  congrArg ListSlot.elements (h.listSlot_eq l)

theorem owner (l : ListId) : g.owner (r.list l) = (f.owner l).map r.element :=
  congrArg ListSlot.owner (h.listSlot_eq l)

theorem length (l : ListId) : g.length (r.list l) = f.length l := by
  rw [Formula.length, h.elements, List.length_map, Formula.length]

theorem kind (e : ElementId) : g.kind (r.element e) = f.kind e := by
  rw [Formula.kind, h.element, Element.kind_rename, Formula.kind]

theorem listsOf (e : ElementId) : g.listsOf (r.element e) = (f.listsOf e).map r.list := by
  rw [Formula.listsOf, h.element, Element.lists_rename, Formula.listsOf]

/-! ## Sizes -/

omit h in
/-- Slots that correspond to different slots are at least as many. -/
theorem size_le_of_injective {n m : Nat} (k : Nat → Nat) (hk : ∀ i < n, k i < m)
    (hinj : ∀ i j, k i = k j → i = j) : n ≤ m := by
  have hmaps : ∀ i ∈ Finset.range n, k i ∈ Finset.range m := fun i hi =>
    Finset.mem_range.mpr (hk i (Finset.mem_range.mp hi))
  have := Finset.card_le_card_of_injOn k hmaps fun i _ j _ hij => hinj i j hij
  simpa using this

theorem size_listSlots_le : f.listSlots.size ≤ g.listSlots.size := by
  refine size_le_of_injective (fun i => (r.list ⟨i⟩).index) (fun i hi => ?_)
    fun i j hij => index_list_eq_iff.mp hij
  have hslot := h.listSlot ⟨i⟩
  simp only [Array.getElem?_eq_getElem hi, Option.map_some] at hslot
  exact (Array.getElem?_eq_some_iff.mp hslot).1

theorem size_elementSlots_le : f.elementSlots.size ≤ g.elementSlots.size := by
  refine size_le_of_injective (fun i => (r.element ⟨i⟩).index) (fun i hi => ?_)
    fun i j hij => index_element_eq_iff.mp hij
  have hslot := h.elementSlot ⟨i⟩
  simp only [Array.getElem?_eq_getElem hi, Option.map_some] at hslot
  exact (Array.getElem?_eq_some_iff.mp hslot).1

/-! ## Writing -/

theorem modifyElement {change change' : ElementSlot → ElementSlot}
    (hc : ∀ slot, change' (r.elementSlot slot) = r.elementSlot (change slot)) (e : ElementId) :
    r.Embeds (f.modifyElement e change) (g.modifyElement (r.element e) change') where
  elementSlot d := by
    simp only [Formula.modifyElement, Array.getElem?_modify, h.elementSlot, index_element_eq_iff]
    split
    · cases f.elementSlots[d.index]? <;> simp [hc]
    · rfl
  listSlot := h.listSlot
  root := h.root
  nextElement k := by simpa using h.nextElement k
  nextList := h.nextList

theorem modifyList {change change' : ListSlot → ListSlot}
    (hc : ∀ slot, change' (r.listSlot slot) = r.listSlot (change slot)) (l : ListId) :
    r.Embeds (f.modifyList l change) (g.modifyList (r.list l) change') where
  elementSlot := h.elementSlot
  listSlot m := by
    simp only [Formula.modifyList, Array.getElem?_modify, h.listSlot, index_list_eq_iff]
    split
    · cases f.listSlots[m.index]? <;> simp [hc]
    · rfl
  root := h.root
  nextElement := h.nextElement
  nextList k := by simpa using h.nextList k

theorem setElement (e : ElementId) (x : Element) :
    r.Embeds (f.setElement e x) (g.setElement (r.element e) (x.rename r.list)) :=
  h.modifyElement (fun _ => by rfl) e

theorem detach (e : ElementId) : r.Embeds (f.detach e) (g.detach (r.element e)) :=
  h.modifyElement (fun _ => by rfl) e

theorem disown (l : ListId) : r.Embeds (f.disown l) (g.disown (r.list l)) :=
  h.modifyList (fun _ => by rfl) l

theorem nextElement_eq : g.nextElement = r.element f.nextElement :=
  (h.nextElement 0).symm

theorem nextList_eq : g.nextList = r.list f.nextList :=
  (h.nextList 0).symm

theorem allocElement (x : Element) :
    r.Embeds (f.allocElement x).1 (g.allocElement (x.rename r.list)).1 where
  elementSlot e := by
    have hnext : (r.element e).index = g.elementSlots.size ↔ e.index = f.elementSlots.size := by
      have hsize : g.elementSlots.size = (r.element f.nextElement).index :=
        congrArg ElementId.index h.nextElement_eq
      rw [hsize, index_element_eq_iff]
      rfl
    simp only [Formula.allocElement, Array.getElem?_push, h.elementSlot, hnext]
    split <;> rfl
  listSlot := h.listSlot
  root := h.root
  nextElement k := by
    have := h.nextElement (1 + k)
    simpa [Formula.allocElement, Nat.add_assoc] using this
  nextList := h.nextList

theorem adoptOnly (e : ElementId) (es : List ElementId) :
    r.Embeds (f.adoptOnly e es) (g.adoptOnly (r.element e) (es.map r.element)) where
  elementSlot := h.elementSlot
  listSlot l := by
    have hnext : (r.list l).index = g.listSlots.size ↔ l.index = f.listSlots.size := by
      have hsize : g.listSlots.size = (r.list f.nextList).index :=
        congrArg ListId.index h.nextList_eq
      rw [hsize, index_list_eq_iff]
      rfl
    simp only [Formula.adoptOnly, Array.getElem?_push, h.listSlot, hnext]
    split <;> rfl
  root := h.root
  nextElement := h.nextElement
  nextList k := by
    have := h.nextList (1 + k)
    simpa [Formula.adoptOnly, Nat.add_assoc] using this

theorem placeAll (l : ListId) (k : Nat) (es : List ElementId) :
    r.Embeds (f.placeAll l k es) (g.placeAll (r.list l) k (es.map r.element)) := by
  induction es generalizing f g k with
  | nil => exact h
  | cons e es ih =>
    rw [List.map_cons, placeAll_cons, placeAll_cons]
    exact ih (h.modifyElement (fun _ => by rfl) e) (k + 1)

theorem reindex (l : ListId) : r.Embeds (f.reindex l) (g.reindex (r.list l)) := by
  rw [reindex_eq_placeAll, reindex_eq_placeAll, h.elements]
  exact h.placeAll l 0 (f.elements l)

theorem foldl_detach (es : List ElementId) :
    r.Embeds (es.foldl Formula.detach f) ((es.map r.element).foldl Formula.detach g) := by
  induction es generalizing f g with
  | nil => exact h
  | cons e es ih => exact ih (h.detach e)

theorem range (l : ListId) (start stop : Nat) :
    g.range (r.list l) start stop = (f.range l start stop).map r.element := by
  simp only [Formula.range, h.elements, List.map_take, List.map_drop]

theorem replaced (l : ListId) (start stop : Nat) (es : List ElementId) :
    g.replaced (r.list l) start stop (es.map r.element) =
      (f.replaced l start stop es).map r.element := by
  simp only [Formula.replaced, h.elements, List.map_append, List.map_take, List.map_drop]

theorem replaceRange (l : ListId) (start stop : Nat) (es : List ElementId) :
    r.Embeds (f.replaceRange l start stop es).1
      (g.replaceRange (r.list l) start stop (es.map r.element)).1 := by
  rw [replaceRange_eq, replaceRange_eq, replaceOnly, replaceOnly, h.range, h.replaced]
  exact ((h.modifyList (fun _ => by rfl) l).foldl_detach _).reindex l

theorem drain (l : ListId) : r.Embeds (f.drain l).1 (g.drain (r.list l)).1 ∧
    (g.drain (r.list l)).2 = (f.drain l).2.map r.element := by
  rw [Formula.drain, Formula.drain, h.length]
  exact ⟨h.replaceRange l 0 (f.length l) [], h.range l 0 (f.length l)⟩

theorem adoptList (e : ElementId) (es : List ElementId) :
    r.Embeds (f.adoptList e es).1 (g.adoptList (r.element e) (es.map r.element)).1 := by
  rw [adoptList_eq, adoptList_eq, h.nextList_eq]
  exact (h.adoptOnly e es).reindex f.nextList

/-! ## Planting -/

theorem plantLists {nss : List (List Node)}
    (ih : ∀ ns ∈ nss, ∀ {f g : Formula}, r.Embeds f g →
      r.Embeds (f.plantAll ns).1 (g.plantAll ns).1 ∧
        (g.plantAll ns).2 = (f.plantAll ns).2.map r.element) (e : ElementId) :
    r.Embeds (f.plantLists e nss).1 (g.plantLists (r.element e) nss).1 ∧
      (g.plantLists (r.element e) nss).2 = (f.plantLists e nss).2.map r.list := by
  induction nss generalizing f g with
  | nil => exact ⟨h, rfl⟩
  | cons ns nss ihs =>
    obtain ⟨hns, hes⟩ := ih ns (by simp) h
    have hadopt := hns.adoptList e (f.plantAll ns).2
    obtain ⟨hrest, hls⟩ := ihs hadopt fun ns hns => ih ns (by simp [hns])
    simp only [Formula.plantLists, hes, List.map_cons, adoptList_snd, hns.nextList_eq]
    exact ⟨hrest, congrArg _ hls⟩

omit h in
/-- Planting the same nodes allocates corresponding slots. -/
theorem planted : (∀ (n : Node) {f g : Formula}, r.Embeds f g →
      r.Embeds (f.plant n).1 (g.plant n).1 ∧ (g.plant n).2 = r.element (f.plant n).2) ∧
    ∀ (ns : List Node) {f g : Formula}, r.Embeds f g →
      r.Embeds (f.plantAll ns).1 (g.plantAll ns).1 ∧
        (g.plantAll ns).2 = (f.plantAll ns).2.map r.element := by
  refine Node.induction ?node ?nil ?cons
  case node =>
    intro n ih f g h
    -- The element's own slot is allocated before those of its lists, and written to at the end.
    have halloc := h.allocElement default
    obtain ⟨hlists, hls⟩ := halloc.plantLists (fun ns hns => ih ns hns) f.nextElement
    have hset := hlists.setElement f.nextElement
      (n.element ((f.allocElement default).1.plantLists f.nextElement n.lists).2)
    rw [← Node.element_map, ← hls] at hset
    rw [plant_eq, plant_eq]
    simp only [allocElement_snd, h.nextElement_eq]
    exact ⟨hset, trivial⟩
  case nil => exact fun h => ⟨h, rfl⟩
  case cons =>
    intro n ns hn hns f g h
    obtain ⟨h₁, he⟩ := hn h
    obtain ⟨h₂, hes⟩ := hns h₁
    simp only [Formula.plantAll, he, hes, List.map_cons]
    exact ⟨h₂, trivial⟩

end Embeds

end Handles

end FormulaEditor
