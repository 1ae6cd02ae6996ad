import FormulaEditor.Document.Compact
import FormulaEditor.Proofs.Document.Delete
import FormulaEditor.Proofs.Formula.Renaming
import FormulaEditor.Proofs.Formula.Walking

/-!
# Compaction keeps a document valid

The survivors of a tidy formula are all of its lists and elements, each of them once, so everything a
survivor refers to survives. Compaction is then a renaming, and caret and anchor go along.
-/

namespace FormulaEditor

namespace Survivors

variable {s : Survivors} {f : Formula} {l l' : ListId} {e e' : ElementId}

/-! ## New handles -/

/-- The new handle of a list is its number among the survivors. -/
theorem getElem?_of_list? (h : s.list? l = some l') : s.lists[l'.index]? = some l := by
  obtain ⟨i, hi, rfl⟩ := Option.map_eq_some_iff.mp h
  obtain ⟨hlt, hget, -⟩ := List.idxOf?_eq_some_iff.mp hi
  exact List.getElem?_eq_some_iff.mpr ⟨hlt, hget⟩

theorem getElem?_of_element? (h : s.element? e = some e') : s.elements[e'.index]? = some e := by
  obtain ⟨i, hi, rfl⟩ := Option.map_eq_some_iff.mp h
  obtain ⟨hlt, hget, -⟩ := List.idxOf?_eq_some_iff.mp hi
  exact List.getElem?_eq_some_iff.mpr ⟨hlt, hget⟩

theorem exists_list? (h : l ∈ s.lists) : ∃ l', s.list? l = some l' := by
  obtain ⟨i, hi⟩ := Option.isSome_iff_exists.mp (List.isSome_idxOf?.mpr h)
  exact ⟨⟨i⟩, by rw [list?, hi, Option.map_some]⟩

theorem exists_element? (h : e ∈ s.elements) : ∃ e', s.element? e = some e' := by
  obtain ⟨i, hi⟩ := Option.isSome_iff_exists.mp (List.isSome_idxOf?.mpr h)
  exact ⟨⟨i⟩, by rw [element?, hi, Option.map_some]⟩

/-- Each number among the survivors is the new handle of one of them. -/
theorem list?_of_getElem? (hn : s.lists.Nodup) (h : s.lists[l'.index]? = some l) :
    s.list? l = some l' := by
  obtain ⟨m, hm⟩ := exists_list? (List.mem_of_getElem? h)
  obtain ⟨hlt, -⟩ := List.getElem?_eq_some_iff.mp (getElem?_of_list? hm)
  have : m.index = l'.index :=
    (List.getElem?_inj hlt hn).mp ((getElem?_of_list? hm).trans h.symm)
  rw [hm, show m = l' from congrArg ListId.mk this]

theorem element?_of_getElem? (hn : s.elements.Nodup) (h : s.elements[e'.index]? = some e) :
    s.element? e = some e' := by
  obtain ⟨d, hd⟩ := exists_element? (List.mem_of_getElem? h)
  obtain ⟨hlt, -⟩ := List.getElem?_eq_some_iff.mp (getElem?_of_element? hd)
  have : d.index = e'.index :=
    (List.getElem?_inj hlt hn).mp ((getElem?_of_element? hd).trans h.symm)
  rw [hd, show d = e' from congrArg ElementId.mk this]

/-! ## New slots -/

theorem elementSlot?_eq_some {slot slot' : ElementSlot} : s.elementSlot? slot = some slot' ↔
    slot.element.renameLists? s.list? = some slot'.element ∧
      slot.parent.map s.list? = slot'.parent.map some ∧ slot'.position = slot.position := by
  obtain ⟨parent, position, element⟩ := slot
  obtain ⟨parent', position', element'⟩ := slot'
  cases parent <;> cases parent' <;> simp [elementSlot?, Option.bind_eq_some_iff] <;> grind

theorem listSlot?_eq_some {slot slot' : ListSlot} : s.listSlot? slot = some slot' ↔
    slot.elements.map s.element? = slot'.elements.map some ∧
      slot.owner.map s.element? = slot'.owner.map some := by
  obtain ⟨owner, elements⟩ := slot
  obtain ⟨owner', elements'⟩ := slot'
  cases owner <;> cases owner' <;>
    simp [listSlot?, Option.bind_eq_some_iff, mapM_eq_some_iff]

/-- The survivors have what each of them refers to, and are counted once. -/
structure Closed (s : Survivors) (f : Formula) : Prop where
  nodup_lists : s.lists.Nodup
  nodup_elements : s.elements.Nodup
  root : f.root ∈ s.lists
  elements : ∀ l ∈ s.lists, ∀ e ∈ f.elements l, e ∈ s.elements
  owner : ∀ l ∈ s.lists, ∀ e, f.owner l = some e → e ∈ s.elements
  parent : ∀ e ∈ s.elements, ∀ l, f.parent e = some l → l ∈ s.lists
  listsOf : ∀ e ∈ s.elements, ∀ l ∈ f.listsOf e, l ∈ s.lists
  filled : ∀ e ∈ s.elements, (f.element e).Filled

/-- What can be reached from the root is closed. -/
theorem closed_of (hf : f.Tidy) : (of f).Closed f where
  nodup_lists := hf.nodup_allLists
  nodup_elements := hf.nodup_allElements
  root := hf.mem_allLists.mpr Formula.reachable_root
  elements l hl e he :=
    hf.mem_allElements.mpr ⟨l, hf.mem_elements.mp he, hf.mem_allLists.mp hl⟩
  owner l hl e ho :=
    hf.mem_allElements.mpr (hf.outer_of_reachable (hf.mem_allLists.mp hl) ho)
  parent e he l hp := by
    obtain ⟨l', hp', hr⟩ := hf.mem_allElements.mp he
    rw [hp] at hp'
    cases hp'
    exact hf.mem_allLists.mpr hr
  listsOf e he l hl := by
    obtain ⟨outer, hp, hr⟩ := hf.mem_allElements.mp he
    exact hf.mem_allLists.mpr (hr.inside (hf.mem_elements.mpr hp) hl)
  filled e he := by
    obtain ⟨l, hp, -⟩ := hf.mem_allElements.mp he
    exact hf.filled e l hp

theorem exists_map {α β : Type} {k : α → Option β} (x : Option α)
    (h : ∀ a, x = some a → ∃ b, k a = some b) : ∃ y : Option β, x.map k = y.map some := by
  cases x with
  | none => exact ⟨none, rfl⟩
  | some a =>
    obtain ⟨b, hb⟩ := h a rfl
    exact ⟨some b, congrArg some hb⟩

namespace Closed

variable (hc : s.Closed f)

include hc

theorem exists_elementSlot? (he : e ∈ s.elements) :
    ∃ slot, s.elementSlot? (f.elementSlot e) = some slot := by
  obtain ⟨x, hx⟩ := (hc.filled e he).exists_renameLists? fun l hl =>
    exists_list? (hc.listsOf e he l hl)
  obtain ⟨parent, hp⟩ := exists_map (f.parent e) fun l hl => exists_list? (hc.parent e he l hl)
  exact ⟨⟨parent, f.position e, x⟩, elementSlot?_eq_some.mpr ⟨hx, hp, rfl⟩⟩

theorem exists_listSlot? (hl : l ∈ s.lists) :
    ∃ slot, s.listSlot? (f.listSlot l) = some slot := by
  obtain ⟨es, hes⟩ := exists_map_some fun e he => exists_element? (hc.elements l hl e he)
  obtain ⟨owner, ho⟩ := exists_map (f.owner l) fun e he => exists_element? (hc.owner l hl e he)
  exact ⟨⟨owner, es⟩, listSlot?_eq_some.mpr ⟨hes, ho⟩⟩

/-- Closed survivors make up a formula, which is the old one under new handles. -/
theorem formula?_spec : ∃ g, s.formula? f = some g ∧ f.Renamed g s.list? s.element? := by
  obtain ⟨elementSlots, helements⟩ := exists_map_some fun e he => hc.exists_elementSlot? he
  obtain ⟨listSlots, hlists⟩ := exists_map_some fun l hl => hc.exists_listSlot? hl
  obtain ⟨root, hroot⟩ := exists_list? hc.root
  let g : Formula := ⟨elementSlots.toArray, listSlots.toArray, root⟩
  have hg : s.formula? f = some g := by
    simp [formula?, mapM_eq_some_iff.mpr helements, mapM_eq_some_iff.mpr hlists, hroot, g]
  have helement : ∀ {e e'}, s.element? e = some e' →
      s.elementSlot? (f.elementSlot e) = some (g.elementSlot e') := by
    intro e e' he
    have hget := getElem?_of_map helements e'.index
    rw [getElem?_of_element? he, Option.map_some, eq_comm, Option.map_eq_some_iff] at hget
    obtain ⟨slot, hslot, h⟩ := hget
    rw [← h]
    simp [Formula.elementSlot, g, hslot]
  have hlist : ∀ {l l'}, s.list? l = some l' →
      s.listSlot? (f.listSlot l) = some (g.listSlot l') := by
    intro l l' hl
    have hget := getElem?_of_map hlists l'.index
    rw [getElem?_of_list? hl, Option.map_some, eq_comm, Option.map_eq_some_iff] at hget
    obtain ⟨slot, hslot, h⟩ := hget
    rw [← h]
    simp [Formula.listSlot, g, hslot]
  have hsize : s.lists.length = listSlots.length := by simpa using congrArg List.length hlists
  have hsize' : s.elements.length = elementSlots.length := by
    simpa using congrArg List.length helements
  refine ⟨g, hg, ?_⟩
  exact {
    list_inj := fun hl hm => Option.some.inj
      ((getElem?_of_list? hl).symm.trans (getElem?_of_list? hm))
    element_inj := fun he hd => Option.some.inj
      ((getElem?_of_element? he).symm.trans (getElem?_of_element? hd))
    list_source := fun {l'} hl' => by
      have hlt : l'.index < s.lists.length := by simpa [Formula.HasList, g, hsize] using hl'
      exact ⟨_, list?_of_getElem? hc.nodup_lists (List.getElem?_eq_getElem hlt)⟩
    element_source := fun {e'} he' => by
      have hlt : e'.index < s.elements.length := by simpa [Formula.HasElement, g, hsize'] using he'
      exact ⟨_, element?_of_getElem? hc.nodup_elements (List.getElem?_eq_getElem hlt)⟩
    hasList := fun {l l'} hl => by
      have hlt := (List.getElem?_eq_some_iff.mp (getElem?_of_list? hl)).1
      simpa [Formula.HasList, g, ← hsize] using hlt
    root := hroot
    elements := fun hl => (listSlot?_eq_some.mp (hlist hl)).1
    owner := fun hl => (listSlot?_eq_some.mp (hlist hl)).2
    element := fun he => (elementSlot?_eq_some.mp (helement he)).1
    parent := fun he => (elementSlot?_eq_some.mp (helement he)).2.1
    position := fun he => (elementSlot?_eq_some.mp (helement he)).2.2 }

end Closed

/-- Caret and anchor of a valid caret survive, at the places they were at. -/
theorem valid_caret {g : Formula} {c : Caret} (h : f.Renamed g s.list? s.element?)
    (hc : c.Valid f) : (s.caret f c).Valid g := by
  obtain ⟨l', hl', hplace⟩ := h.isPlace hc.place
  have hcaret : s.caret f c =
      ⟨⟨l', c.place.pos⟩, c.anchor.bind s.place?, c.selecting && (c.anchor.bind s.place?).isSome⟩ := by
    simp [Survivors.caret, place?, hl']
  rw [hcaret]
  cases ha : c.anchor with
  | none => exact ⟨hplace, by simp, by simp⟩
  | some p =>
    obtain ⟨m', hm', hp⟩ := h.isPlace (hc.anchor p ha)
    have hsel : c.selecting = true := by simp [hc.selecting, ha]
    exact ⟨hplace, by simpa [place?, hm'] using hp, by simp [place?, hm', hsel]⟩

end Survivors

namespace Document

variable {doc : Document}

/-- Compacting succeeds, and the document stays valid under its new handles. -/
theorem Valid.compact (h : doc.Valid) : Succeeds doc.compact fun r => r.1.Valid := by
  obtain ⟨g, hg, hr⟩ := (Survivors.closed_of h.formula).formula?_spec
  unfold Document.compact
  simp only [hg]
  exact .ok ⟨hr.tidy h.formula, Survivors.valid_caret hr h.caret⟩

end Document

end FormulaEditor
