import FormulaEditor.Proofs.Formula.Planting

/-!
# Splicing

A formula is `Tidy` when its links agree and its scripts are filled; elements are `Ready` when they
may go into a list of it. Replacing a run of a list by ready elements keeps a formula tidy and hands
out ready elements again.
-/

namespace FormulaEditor.Formula

variable {f g : Formula} {e : ElementId} {l l' : ListId} {es es' : List ElementId}
  {start stop : Nat}

/-- All links agree, and scripts are filled. -/
structure Tidy (f : Formula) : Prop extends Sound f [] where
  filled : f.Filled

/-- Elements that stand nowhere and may go into a list. -/
structure Ready (f : Formula) (es : List ElementId) : Prop extends Loose f es where
  whole : ∀ e ∈ es, f.Whole e
  filled : ∀ e ∈ es, (f.element e).Filled

theorem Ready.nil : f.Ready [] :=
  ⟨.nil, by simp, by simp⟩

theorem Ready.cons (he : f.Ready [e]) (h : f.Ready es) (hn : e ∉ es) : f.Ready (e :: es) where
  nodup := List.nodup_cons.mpr ⟨hn, h.nodup⟩
  hasElement := by simpa using ⟨he.hasElement e (by simp), h.hasElement⟩
  parent := by simpa using ⟨he.parent e (by simp), h.parent⟩
  whole := by simpa using ⟨he.whole e (by simp), h.whole⟩
  filled := by simpa using ⟨he.filled e (by simp), h.filled⟩

theorem Ready.sublist (h : f.Ready es) (hs : es'.Sublist es) : f.Ready es' where
  nodup := h.nodup.sublist hs
  hasElement e he := h.hasElement e (hs.subset he)
  parent e he := h.parent e (hs.subset he)
  whole e he := h.whole e (hs.subset he)
  filled e he := h.filled e (hs.subset he)

theorem Ready.grows (hf : f.Tidy) (hg : f.Grows g) (h : f.Ready es) : g.Ready es where
  toLoose := hg.loose h.toLoose
  whole e he := hg.whole hf.toLinked (h.hasElement e he) (h.whole e he)
  filled e he := by
    rw [hg.element (h.hasElement e he)]
    exact h.filled e he

theorem Ready.not_mem_elements (hf : f.Tidy) (h : f.Ready es) (he : e ∈ es) :
    e ∉ f.elements l := fun hc => by
  simpa [h.parent e he] using hf.mem_elements.mp hc

namespace Tidy

theorem empty : Formula.empty.Tidy where
  link e l i := by
    have he : Formula.empty.elements l = [] := by
      obtain ⟨_ | i⟩ := l <;> simp [elements, listSlot, Formula.empty]
    have hp : Formula.empty.parent e = none := by simp [parent, elementSlot, Formula.empty]
    simp [he, hp]
  owned l e h := by
    obtain ⟨_ | i⟩ := l <;> simp [owner, listSlot, Formula.empty] at h
  allocated e l h := by simp [listsOf, element, elementSlot, Formula.empty, Element.lists] at h
  root_owner := rfl
  root_hasList := Nat.one_pos
  whole e l h := by simp [parent, elementSlot, Formula.empty] at h
  filled e l h := by simp [parent, elementSlot, Formula.empty] at h

theorem hasList_of_reachable (h : f.Tidy) (hl : f.Reachable l) : f.HasList l :=
  h.toSound.reachable_hasList hl

/-! ## Planting -/

theorem plant (h : f.Tidy) {n : Node} (hn : Node.EveryNode Node.Filled [n]) :
    (f.plant n).1.Tidy ∧ f.Grows (f.plant n).1 ∧ (f.plant n).1.Ready [(f.plant n).2] := by
  have hp := planted.1 n f [] h.toSound (by simp)
  obtain ⟨hf, hes⟩ := hp.filled h.filled hn
  exact ⟨⟨hp.sound, hf⟩, hp.grows, hp.loose, hp.whole, hes⟩

/-- A new element is none of those that are there. -/
theorem plant_not_mem (h : f.Tidy) (n : Node) (hes : f.Ready es) : (f.plant n).2 ∉ es := fun hc =>
  (planted.1 n f [] h.toSound (by simp)).fresh _ (by simp) (hes.hasElement _ hc)

theorem plantAll (h : f.Tidy) {ns : List Node} (hn : Node.EveryNode Node.Filled ns) :
    (f.plantAll ns).1.Tidy ∧ f.Grows (f.plantAll ns).1 ∧
      (f.plantAll ns).1.Ready (f.plantAll ns).2 := by
  have hp := planted.2 ns f [] h.toSound (by simp)
  obtain ⟨hf, hes⟩ := hp.filled h.filled hn
  exact ⟨⟨hp.sound, hf⟩, hp.grows, hp.loose, hp.whole, hes⟩

/-! ## Replacing a run -/

theorem replaceRange (h : f.Tidy) (hl : f.HasList l) (hs : start ≤ stop) (hes : f.Ready es) :
    (f.replaceRange l start stop es).1.Tidy where
  toSound := h.toSound.replaceRange hl hs hes.toLoose hes.whole
  filled e l' hp := by
    rw [element_replaceRange]
    exact (h.parent_replaceRange_of_some hl hes.toLoose hp).elim (h.filled e l')
      fun he => hes.filled e he.1

/-- What is taken out of a list may go into another one. -/
theorem ready_range (h : f.Tidy) (hl : f.HasList l) (hs : start ≤ stop) (hes : f.Ready es) :
    (f.replaceRange l start stop es).1.Ready (f.range l start stop) where
  toLoose := h.loose_range hl hs hes.toLoose
  whole e he := by
    rw [whole_replaceRange]
    exact h.whole e l (h.mem_elements.mp (mem_elements_of_mem_range he))
  filled e he := by
    rw [element_replaceRange]
    exact h.filled e l (h.mem_elements.mp (mem_elements_of_mem_range he))

/-- Elements that stay outside stay ready. -/
theorem ready_replaceRange (h : f.Tidy) (hl : f.HasList l) (start stop : Nat) (hes : f.Ready es)
    (hes' : f.Ready es') (hd : ∀ e ∈ es', e ∉ es) :
    (f.replaceRange l start stop es).1.Ready es' where
  nodup := hes'.nodup
  hasElement e he := by simpa [HasElement] using hes'.hasElement e he
  parent e he := by
    have hmem : e ∉ f.replaced l start stop es := fun hc =>
      (mem_of_mem_replaced hc).elim (hes'.not_mem_elements h he) (hd e he)
    rw [parent_replaceRange hl (h.hasElement_replaced hes.toLoose), if_neg hmem,
      hes'.parent e he, ite_self]
  whole e he := whole_replaceRange.mpr (hes'.whole e he)
  filled e he := by
    rw [element_replaceRange]
    exact hes'.filled e he

end Tidy

/-- Elements whose lists matter stay in the list of the replaced run, so nothing gets lost. -/
theorem keeps_replaceRange (hl : f.HasList l) (hs : start ≤ stop)
    (hr : ∀ e ∈ f.range l start stop, f.listsOf e = []) :
    f.Keeps (f.replaceRange l start stop es).1 where
  root := root_replaceRange
  link l' e he i hi := by
    refine ⟨?_, by simpa using hi⟩
    rw [elements_replaceRange hl]
    split
    · rename_i hll
      subst hll
      refine (mem_range_or hs he es).resolve_left fun hc => ?_
      simp [hr e hc] at hi
    · exact he

theorem exists_of_mem_range (he : e ∈ f.range l start stop) :
    ∃ i, start ≤ i ∧ i < stop ∧ (f.elements l)[i]? = some e := by
  obtain ⟨i, hi⟩ := List.mem_iff_getElem?.mp he
  rw [range, List.getElem?_take, List.getElem?_drop] at hi
  split at hi
  · exact ⟨start + i, by omega, by omega, hi⟩
  · cases hi

/-- A range that begins later in the list is part of the range. -/
theorem mem_range_of_le {start' : Nat} (h : start ≤ start') (he : e ∈ f.range l start' stop) :
    e ∈ f.range l start stop := by
  have hd : f.range l start' stop = (f.range l start stop).drop (start' - start) := by
    have hfirst : start + (start' - start) = start' := by omega
    have hrest : stop - start - (start' - start) = stop - start' := by omega
    rw [range, range, List.drop_take, List.drop_drop, hfirst, hrest]
  rw [hd] at he
  exact List.mem_of_mem_drop he

theorem range_self : f.range l start start = [] := by
  simp [range]

/-- Putting elements in loses nothing. -/
theorem keeps_insert (hl : f.HasList l) : f.Keeps (f.replaceRange l start start es).1 :=
  keeps_replaceRange hl (Nat.le_refl _) (by simp [range_self])

/-- The list of the replaced run stays part of the formula, and so does what lies around it. -/
theorem Tidy.reachable_replaceRange (h : f.Tidy) (hl : f.Reachable l) :
    (f.replaceRange l start stop es).1.Reachable l := by
  refine h.toSound.reachable_of_agree hl root_replaceRange fun l' _ hnot e he i hi => ?_
  have hne : l ≠ l' := by
    rintro rfl
    exact hnot 0 (.here l)
  rw [elements_replaceRange (h.toSound.reachable_hasList hl), if_neg hne]
  exact ⟨he, by simpa using hi⟩

theorem length_replaceRange (hl : f.HasList l) (hs : start ≤ stop) (hst : stop ≤ f.length l) :
    (f.replaceRange l start stop es).1.length l = f.length l - (stop - start) + es.length := by
  rw [length, elements_replaceRange hl, if_pos rfl, length_replaced hs hst]

theorem length_replaceRange_of_ne (hl : f.HasList l) (h : l ≠ l') :
    (f.replaceRange l start stop es).1.length l' = f.length l' := by
  rw [length, elements_replaceRange hl, if_neg h, length]

/-- No list gets shorter when elements are put in. -/
theorem length_le_insert (hl : f.HasList l) (hs : start ≤ f.length l) :
    f.length l' ≤ (f.replaceRange l start start es).1.length l' := by
  by_cases h : l = l'
  · subst h
    rw [length_replaceRange hl (Nat.le_refl _) hs]
    omega
  · rw [length_replaceRange_of_ne hl h]

theorem mem_replaceRange (hl : f.HasList l) (start stop : Nat) (he : e ∈ es) :
    e ∈ (f.replaceRange l start stop es).1.elements l := by
  rw [elements_replaceRange hl, if_pos rfl]
  simp [replaced, he]

theorem splice_eq (hs : start ≤ stop) (hst : stop ≤ f.length l) :
    f.splice l start stop es = .ok (f.replaceRange l start stop es) := by
  simp [splice, hs, hst]

end FormulaEditor.Formula
