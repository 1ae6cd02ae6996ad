import FormulaEditor.Proofs.Document.Opening

/-!
# One list and one new element

An insertion changes one list of the formula and makes one new element with lists of its own. Whatever
it does on the way, to other lists and other elements it does nothing.
-/

namespace FormulaEditor.Formula

variable {f g : Formula} {e x : ElementId} {i l : ListId}
  {content before run left right after es es' : List ElementId}

/-! ## A run of a list -/

theorem range_of_split (h : f.elements l = before ++ (run ++ after)) :
    f.range l before.length (before.length + run.length) = run := by
  rw [range, h, List.drop_left, Nat.add_sub_cancel_left, List.take_left]

theorem replaced_of_split (h : f.elements l = before ++ (run ++ after)) :
    f.replaced l before.length (before.length + run.length) es = before ++ (es ++ after) := by
  rw [replaced, h, List.take_left, ← List.drop_drop, List.drop_left, List.drop_left,
    List.append_assoc]

/-- From an index on, a run is a run of its own. -/
theorem range_drop_of_split {k : Nat} (h : f.elements l = before ++ (run ++ after))
    (hk : k ≤ run.length) (es : List ElementId) :
    f.range l (before.length + k) (before.length + run.length) = run.drop k ∧
      f.replaced l (before.length + k) (before.length + run.length) es =
        before ++ (run.take k ++ (es ++ after)) := by
  have hsplit : f.elements l = (before ++ run.take k) ++ (run.drop k ++ after) := by
    rw [h, List.append_assoc, ← List.append_assoc (run.take k), List.take_append_drop]
  have hlen : (before ++ run.take k).length = before.length + k := by
    rw [List.length_append, List.length_take_of_le hk]
  have hstop : before.length + run.length = before.length + k + (run.drop k).length := by
    rw [List.length_drop]
    omega
  rw [hstop, ← hlen]
  exact ⟨range_of_split hsplit, by rw [replaced_of_split hsplit, List.append_assoc]⟩

theorem length_of_split (h : f.elements l = before ++ (run ++ after)) :
    f.length l = before.length + run.length + after.length := by
  rw [Formula.length, h, List.length_append, List.length_append, Nat.add_assoc]

/-- What is taken out of a list is ready to go elsewhere, and what is ready stays so. -/
theorem Tidy.ready_takeOut (hg : g.Tidy) (hl : g.HasList l)
    (h : g.elements l = before ++ (run ++ after)) :
    (g.replaceRange l before.length (before.length + run.length) []).1.Ready run ∧
      ∀ xs, g.Ready xs →
        (g.replaceRange l before.length (before.length + run.length) []).1.Ready xs := by
  constructor
  · have hrun := hg.ready_range hl (Nat.le_add_right before.length run.length) .nil
    rwa [range_of_split h] at hrun
  · intro xs hxs
    exact hg.ready_replaceRange hl _ _ .nil hxs (by simp)

theorem Ready.append (h : f.Ready es) (h' : f.Ready es')
    (hd : ∀ x ∈ es, ∀ y ∈ es', x ≠ y) : f.Ready (es ++ es') where
  nodup := List.nodup_append.mpr ⟨h.nodup, h'.nodup, hd⟩
  hasElement := List.forall_mem_append.mpr ⟨h.hasElement, h'.hasElement⟩
  parent := List.forall_mem_append.mpr ⟨h.parent, h'.parent⟩
  whole := List.forall_mem_append.mpr ⟨h.whole, h'.whole⟩
  filled := List.forall_mem_append.mpr ⟨h.filled, h'.filled⟩

/-! ## The relation -/

/-- The second formula holds `content` in a list, and there may be a new element with new lists. All
other elements and lists are those of the first formula. -/
structure Amends (f g : Formula) (l : ListId) (e : ElementId) (content : List ElementId) : Prop where
  tidy : g.Tidy
  root : g.root = f.root
  hasList : ∀ i, f.HasList i → g.HasList i
  reachable : g.Reachable l
  list : g.elements l = content
  new : ∀ i ∈ g.listsOf e, ¬f.HasList i
  elements : ∀ i ≠ l, i ∉ g.listsOf e → g.elements i = f.elements i
  element : ∀ x ≠ e, g.element x = f.element x

/-- At first nothing is changed. -/
theorem Tidy.amends (hf : f.Tidy) (hl : f.Reachable l) (he : ¬f.HasElement e) :
    f.Amends f l e (f.elements l) where
  tidy := hf
  root := rfl
  hasList _ hi := hi
  reachable := hl
  list := rfl
  new _ hi := absurd (hasElement_of_mem_listsOf hi) he
  elements _ _ _ := rfl
  element _ _ := rfl

/-- A new element without lists changes nothing. -/
theorem Tidy.amends_allocElement {y : Element} (hf : f.Tidy) (hl : f.Reachable l)
    (hy : y.lists = []) : f.Amends (f.allocElement y).1 l f.nextElement (f.elements l) where
  tidy := ⟨hf.toSound.allocElement hy, hf.filled.allocElement⟩
  root := rfl
  hasList _ hi := hi
  reachable := (Grows.allocElement f y).keeps.reachable hl
  list := rfl
  new i hi := by
    rw [listsOf, element_allocElement, if_pos rfl, hy] at hi
    cases hi
  elements _ _ _ := rfl
  element x hx := by rw [element_allocElement, if_neg hx.symm]

namespace Amends

/-- A run of the list is exchanged for others. -/
theorem exchange (h : f.Amends g l e (before ++ (run ++ after))) (hl : g.HasList l)
    (hes : g.Ready es) :
    f.Amends (g.replaceRange l before.length (before.length + run.length) es).1 l e
      (before ++ (es ++ after)) where
  tidy := h.tidy.replaceRange hl (Nat.le_add_right _ _) hes
  root := root_replaceRange.trans h.root
  hasList i hi := by simpa [HasList] using h.hasList i hi
  reachable := h.tidy.reachable_replaceRange h.reachable
  list := by rw [elements_replaceRange hl, if_pos rfl, replaced_of_split h.list]
  new i hi := h.new i (listsOf_replaceRange ▸ hi)
  elements i hil hi := by
    rw [elements_replaceRange hl, if_neg hil.symm]
    exact h.elements i hil (listsOf_replaceRange ▸ hi)
  element x hx := element_replaceRange.trans (h.element x hx)

/-- A list of the new element is filled. -/
theorem fill (h : f.Amends g l e content) (hl : f.HasList l) (hi : i ∈ g.listsOf e)
    (hes : g.Ready es) : f.Amends (g.replaceRange i 0 0 es).1 l e content where
  tidy := h.tidy.replaceRange (h.tidy.allocated e i hi) (Nat.le_refl _) hes
  root := root_replaceRange.trans h.root
  hasList k hk := by simpa [HasList] using h.hasList k hk
  reachable := (keeps_insert (h.tidy.allocated e i hi)).reachable h.reachable
  list := by
    have hne : i ≠ l := fun hc => h.new i hi (hc ▸ hl)
    rw [elements_replaceRange (h.tidy.allocated e i hi), if_neg hne, h.list]
  new k hk := h.new k (listsOf_replaceRange ▸ hk)
  elements k hkl hk := by
    rw [listsOf_replaceRange] at hk
    have hne : i ≠ k := fun hc => hk (hc ▸ hi)
    rw [elements_replaceRange (h.tidy.allocated e i hi), if_neg hne, h.elements k hkl hk]
  element x hx := element_replaceRange.trans (h.element x hx)

/-- Scripts are opened that are the new element. -/
theorem opened {g' : Formula} {half : ListId} (h : f.Amends g l e content)
    (ho : g.Opened e g' half) (hlists : ∀ i ∈ g'.listsOf e, i ∈ g.listsOf e ∨ ¬f.HasList i) :
    f.Amends g' l e content where
  tidy := ho.tidy h.tidy
  root := ho.root.trans h.root
  hasList i hi := Nat.lt_of_lt_of_le (h.hasList i hi) ho.size_le
  reachable := ho.keeps.reachable h.reachable
  list := (ho.elements l).trans h.list
  new i hi := (hlists i hi).elim (h.new i) id
  elements i hil hi :=
    (ho.elements i).trans (h.elements i hil fun hc => hi (ho.keeps_lists i hc))
  element x hx := (ho.element x hx).trans (h.element x hx)

end Amends

/-! ## Planting without content -/

/-- Lists without content change no place and no element. -/
theorem plantLists_empty (n : Nat) :
    f.SamePlaces (f.plantLists e (List.replicate n [])).1 ∧
      (f.plantLists e (List.replicate n [])).1.element x = f.element x := by
  induction n generalizing f with
  | zero => exact ⟨.refl f, rfl⟩
  | succ n ih =>
    have hstep : (f.plantLists e (List.replicate (n + 1) [])).1 =
        ((f.adoptList e []).1.plantLists e (List.replicate n [])).1 := by
      rw [List.replicate_succ, plantLists, plantAll]
    rw [hstep]
    obtain ⟨hplaces, helement⟩ := ih (f := (f.adoptList e []).1)
    exact ⟨(SamePlaces.adoptList f e).trans hplaces, helement.trans element_adoptList⟩

section Empty

variable {n : Node} {k : Nat} (hn : n.lists = List.replicate k [])

include hn

theorem snd_plant : (f.plant n).2 = f.nextElement := by
  rw [plant_eq, hn]
  rfl

/-- A node without content changes no place. -/
theorem samePlaces_plant : f.SamePlaces (f.plant n).1 := by
  rw [plant_eq, hn]
  exact ((SamePlaces.allocElement f default).trans (plantLists_empty (x := default) k).1).trans
    (.setElement _ _ _)

/-- A node without content changes no element but the new one. -/
theorem element_plant_of_ne (hx : x ≠ f.nextElement) : (f.plant n).1.element x = f.element x := by
  rw [plant_eq, hn]
  simp only [allocElement_snd]
  rw [element_setElement, if_neg fun hc => hx hc.1.symm, (plantLists_empty k).2,
    element_allocElement, if_neg hx.symm]

end Empty

namespace Amends

/-- The element is planted, with lists in which there is nothing yet. -/
theorem plant {n : Node} {k : Nat} (h : f.Amends g l e content) (he : g.nextElement = e)
    (hn : n.lists = List.replicate k []) (hfilled : n.Filled) :
    f.Amends (g.plant n).1 l e content := by
  subst he
  obtain ⟨hg, hgrows, hready⟩ := h.tidy.plant
    (Node.everyNode_filled hfilled fun ns hns => List.eq_of_mem_replicate (hn ▸ hns))
  have hfresh : ¬g.HasElement g.nextElement := not_hasElement_nextElement
  have hnone : ∀ i, i ∉ g.listsOf g.nextElement := fun i hi => hfresh (hasElement_of_mem_listsOf hi)
  rw [snd_plant hn] at hready
  exact {
    tidy := hg
    root := hgrows.root.trans h.root
    hasList := fun i hi => hgrows.hasList (h.hasList i hi)
    reachable := hgrows.keeps.reachable h.reachable
    list := ((samePlaces_plant hn).elements _).trans h.list
    new := fun i hi hc => by
      have howner := (hready.whole _ (List.mem_singleton_self _)).owns i hi
      rw [hgrows.owner (h.hasList i hc)] at howner
      exact hnone i ((h.tidy.owned i _ howner).resolve_right List.not_mem_nil)
    elements := fun i hil _ => ((samePlaces_plant hn).elements _).trans (h.elements i hil (hnone i))
    element := fun x hx => (element_plant_of_ne hn hx).trans (h.element x hx) }

/-- The new element is planted beside loose ones. -/
theorem plant_beside {n : Node} {k : Nat}
    (h : f.Amends g l e content) (he : g.nextElement = e) (hl : f.HasList l)
    (hes : g.Ready es) (hn : n.lists = List.replicate k []) (hfilled : n.Filled) :
    ∃ g' ls, g.plant n = (g', e) ∧ ls.length = k ∧ g'.element e = n.element ls ∧
      f.Amends g' l e content ∧ g'.Ready (e :: es) ∧
      ∀ i ∈ g'.listsOf e, g'.elements i = [] := by
  have h' := h.plant he hn hfilled
  have hfilled' : Node.EveryNode Node.Filled [n] :=
    Node.everyNode_filled hfilled fun ns hns => List.eq_of_mem_replicate (hn ▸ hns)
  obtain ⟨-, hgrows, hready⟩ := h.tidy.plant hfilled'
  obtain ⟨ls, hlen, helement⟩ := element_plant h.tidy.toSound n
  have hnot := h.tidy.plant_not_mem n hes
  rw [snd_plant hn, he] at hready helement hnot
  rw [hn, List.length_replicate] at hlen
  refine ⟨(g.plant n).1, ls, Prod.ext rfl ((snd_plant hn).trans he), hlen, helement, h',
    hready.cons (hes.grows h.tidy hgrows) hnot, fun i hi => ?_⟩
  have hil : i ≠ l := fun hc => h'.new i hi (hc ▸ hl)
  have hnone : i ∉ g.listsOf e := fun hc =>
    not_hasElement_nextElement (he ▸ hasElement_of_mem_listsOf hc)
  rw [(samePlaces_plant hn).elements, h.elements i hil hnone]
  exact List.eq_nil_iff_forall_not_mem.mpr fun x hx => h'.new i hi (hasList_of_mem hx)

end Amends

/-! ## Runs out of the list and into the element -/

/-- Two runs beside each other are taken out, the right one before the left one. -/
theorem Tidy.takeOut_both (hf : f.Tidy) (hr : f.Reachable l) (he : e = f.nextElement)
    (hsplit : f.elements l = before ++ (left ++ (right ++ after))) :
    ∃ g g', g = (f.replaceRange l (before.length + left.length)
          (before.length + left.length + right.length) []).1 ∧
        g' = (g.replaceRange l before.length (before.length + left.length) []).1 ∧
      g.elements l = before ++ (left ++ after) ∧ g'.nextElement = e ∧
      f.Amends g' l e (before ++ after) ∧ g'.Ready (left ++ right) := by
  have hl := hf.hasList_of_reachable hr
  have hsplit' : f.elements l = (before ++ left) ++ (right ++ after) := by
    rw [hsplit, List.append_assoc]
  have h₀ := hf.amends hr (he ▸ not_hasElement_nextElement)
  rw [hsplit'] at h₀
  have h₁ := h₀.exchange hl .nil
  obtain ⟨hright, -⟩ := hf.ready_takeOut hl hsplit'
  rw [List.length_append] at h₁ hright
  have hsplit₁ := h₁.list.trans (List.append_assoc before left after)
  rw [List.nil_append, List.append_assoc] at h₁
  have hl₁ := h₁.hasList l hl
  have h₂ := h₁.exchange hl₁ .nil
  obtain ⟨hleft, hkept⟩ := h₁.tidy.ready_takeOut hl₁ hsplit₁
  refine ⟨_, _, rfl, rfl, hsplit₁, ?_, h₂, hleft.append (hkept right hright) ?_⟩
  · rw [he]
    simp [nextElement]
  · have hnodup := hf.nodup_elements l
    rw [hsplit] at hnodup
    have hrest := (List.nodup_append.mp hnodup).2.1
    intro x hx y hy
    exact (List.nodup_append.mp hrest).2.2 x hx y (List.mem_append_left after hy)

/-- A list of the new element takes a run in. Whatever else is ready stays so. -/
theorem Amends.takeIn (h : f.Amends g l e content) (hl : f.HasList l) (hi : i ∈ g.listsOf e)
    (hempty : g.elements i = []) (hrun : g.Ready run) :
    f.Amends (g.replaceRange i 0 0 run).1 l e content ∧
      (g.replaceRange i 0 0 run).1.elements i = run ∧
      (∀ k ≠ i, (g.replaceRange i 0 0 run).1.elements k = g.elements k) ∧
      ∀ xs, g.Ready xs → (∀ x ∈ xs, x ∉ run) → (g.replaceRange i 0 0 run).1.Ready xs := by
  have hi' := h.tidy.allocated e i hi
  refine ⟨h.fill hl hi hrun, ?_, fun k hk => ?_, fun xs hxs hd => ?_⟩
  · rw [elements_replaceRange hi', if_pos rfl, replaced, hempty]
    simp
  · rw [elements_replaceRange hi', if_neg hk.symm]
  · exact h.tidy.ready_replaceRange hi' 0 0 hrun hxs hd

end FormulaEditor.Formula
