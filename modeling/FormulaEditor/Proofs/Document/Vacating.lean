import FormulaEditor.Document.Delete
import FormulaEditor.Proofs.Formula.Splicing

/-!
# Emptying lists

An element that is taken apart first loses lists: what they hold is handed out, and they are its
lists no more. In between the element still refers to lists that are not its own. `Vacated` says how
far a formula may be out of order then, and the two ways on lead back to a tidy formula: taking the
element out, or leaving it with the lists that it still has.
-/

namespace FormulaEditor.Formula

variable {f g h : Formula} {e e' : ElementId} {l outer : ListId} {ls done rest : List ListId}
  {contents : List ElementId} {x : Element}

/-- The second formula is the first one after some lists of an element have been emptied and taken
from it. -/
structure Vacated (f : Formula) (e : ElementId) (ls : List ListId) (g : Formula)
    (contents : List ElementId) : Prop where
  linked : g.Linked []
  root : g.root = f.root
  element : ∀ e, g.element e = f.element e
  elements : ∀ l ∉ ls, g.elements l = f.elements l
  owner : ∀ l ∉ ls, g.owner l = f.owner l
  disowned : ∀ l ∈ ls, g.owner l = none
  parent : ∀ e l, g.parent e = some l → f.parent e = some l
  whole : ∀ e' ≠ e, f.Whole e' → g.Whole e'
  loose : g.Loose contents
  origin : ∀ c ∈ contents, ∃ l ∈ ls, f.parent c = some l

theorem range_all (f : Formula) (l : ListId) : f.range l 0 (f.length l) = f.elements l := by
  simp [range, length]

theorem range_position (hf : f.Linked []) (he : f.parent e = some l) :
    f.range l (f.position e) (f.position e + 1) = [e] := by
  have hi := hf.getElem?_position he
  obtain ⟨hlt, hget⟩ := List.getElem?_eq_some_iff.mp hi
  rw [range, List.drop_eq_getElem_cons hlt, hget]
  simp

/-! ## One list -/

/-- The formula once a list is empty and belongs to no element. -/
def vacate (f : Formula) (l : ListId) : Formula :=
  (f.drain l).1.disown l

@[simp] theorem root_vacate : (f.vacate l).root = f.root := by
  rw [vacate, root_disown, drain, root_replaceRange]

@[simp] theorem element_vacate : (f.vacate l).element e = f.element e := by
  rw [vacate, element_disown, drain, element_replaceRange]

@[simp] theorem listsOf_vacate : (f.vacate l).listsOf e = f.listsOf e := by
  simp only [listsOf, element_vacate]

theorem hasElement_vacate : (f.vacate l).HasElement e ↔ f.HasElement e := by
  rw [HasElement, vacate, size_elementSlots_disown, drain, size_elementSlots_replaceRange,
    HasElement]

theorem elements_vacate_of_ne (hl : f.HasList l) {l' : ListId} (h : l' ≠ l) :
    (f.vacate l).elements l' = f.elements l' := by
  rw [vacate, elements_disown, drain, elements_replaceRange hl, if_neg h.symm]

theorem owner_vacate {l' : ListId} :
    (f.vacate l).owner l' = if l = l' then none else f.owner l' := by
  rw [vacate, owner_disown, drain, owner_replaceRange]

theorem Linked.vacate (hf : f.Linked []) (hl : f.HasList l) : (f.vacate l).Linked [] :=
  (hf.replaceRange hl (Nat.zero_le _) .nil).disown l

theorem Linked.parent_of_vacate (hf : f.Linked []) (hl : f.HasList l) {l' : ListId}
    (hp : (f.vacate l).parent e = some l') : f.parent e = some l' := by
  rw [Formula.vacate, parent_disown] at hp
  exact (hf.parent_replaceRange_of_some hl .nil hp).resolve_right (by simp)

theorem Linked.loose_vacate (hf : f.Linked []) (hl : f.HasList l) :
    (f.vacate l).Loose (f.elements l) := by
  have h := hf.loose_range hl (Nat.zero_le (f.length l)) .nil
  rw [range_all] at h
  refine ⟨h.nodup, fun e he => hasElement_vacate.mpr (hf.hasElement he), fun e he => ?_⟩
  rw [Formula.vacate, parent_disown]
  exact h.parent e he

/-- A list of another element is not the one that is emptied. -/
theorem Whole.vacate (hw : f.Whole e') (ho : f.owner l = some e) (hne : e' ≠ e) :
    (f.vacate l).Whole e' where
  owns l' hl' := by
    rw [listsOf_vacate] at hl'
    have hown := hw.owns l' hl'
    have hll : l ≠ l' := by
      rintro rfl
      exact hne (Option.some.inj (hown.symm.trans ho))
    rwa [owner_vacate, if_neg hll]
  nodup := by
    rw [listsOf_vacate]
    exact hw.nodup

namespace Vacated

theorem refl (hf : f.Sound []) (e : ElementId) : f.Vacated e [] f [] where
  linked := hf.toLinked
  root := rfl
  element _ := rfl
  elements _ _ := rfl
  owner _ _ := rfl
  disowned := by simp
  parent _ _ hp := hp
  whole _ _ hw := hw
  loose := .nil
  origin := by simp

/-- One more list is emptied. -/
theorem step (hv : f.Vacated e ls g contents) (hl : l ∉ ls) (ho : f.owner l = some e) :
    f.Vacated e (ls ++ [l]) (g.vacate l) (contents ++ g.elements l) := by
  have hown : g.owner l = some e := (hv.owner l hl).trans ho
  have hhas := hasList_of_owner hown
  have hparent : ∀ e' l', (g.vacate l).parent e' = some l' → g.parent e' = some l' :=
    fun e' l' hp => hv.linked.parent_of_vacate hhas hp
  have hloose := hv.linked.loose_vacate hhas
  exact {
    linked := hv.linked.vacate hhas
    root := root_vacate.trans hv.root
    element := fun e' => element_vacate.trans (hv.element e')
    elements := fun l' hl' => by
      obtain ⟨hl', hne⟩ : l' ∉ ls ∧ l' ≠ l := by simpa using hl'
      rw [elements_vacate_of_ne hhas hne, hv.elements l' hl']
    owner := fun l' hl' => by
      obtain ⟨hl', hne⟩ : l' ∉ ls ∧ l' ≠ l := by simpa using hl'
      rw [owner_vacate, if_neg hne.symm, hv.owner l' hl']
    disowned := fun l' hl' => by
      rw [owner_vacate]
      split
      · rfl
      · rename_i hne
        refine hv.disowned l' ((List.mem_append.mp hl').resolve_right fun hc => ?_)
        exact hne (List.mem_singleton.mp hc).symm
    parent := fun e' l' hp => hv.parent e' l' (hparent e' l' hp)
    whole := fun e' hne hw => (hv.whole e' hne hw).vacate hown hne
    loose := by
      refine ⟨List.nodup_append.mpr ⟨hv.loose.nodup, hloose.nodup, ?_⟩, ?_, ?_⟩
      · rintro c hc c' hc' rfl
        simpa [hv.loose.parent c hc] using hv.linked.mem_elements.mp hc'
      · intro c hc
        rw [hasElement_vacate]
        exact (List.mem_append.mp hc).elim (hv.loose.hasElement c) hv.linked.hasElement
      · intro c hc
        obtain hc | hc := List.mem_append.mp hc
        · refine Option.eq_none_iff_forall_ne_some.mpr fun l' hp => ?_
          simpa [hv.loose.parent c hc] using hparent c l' hp
        · exact hloose.parent c hc
    origin := fun c hc => by
      obtain hc | hc := List.mem_append.mp hc
      · obtain ⟨l', hl', hp⟩ := hv.origin c hc
        exact ⟨l', List.mem_append_left _ hl', hp⟩
      · exact ⟨l, by simp, hv.parent c l (hv.linked.mem_elements.mp hc)⟩ }

theorem single (hf : f.Sound []) (ho : f.owner l = some e) :
    f.Vacated e [l] (f.vacate l) (f.elements l) :=
  (refl hf e).step List.not_mem_nil ho

theorem drain_snd : (f.drain l).2 = f.elements l :=
  range_all f l

/-- One list more is emptied, and where it is the caller's, what was there before is counted. -/
def collectStep (caller : ListId) (state : Formula × List ElementId × Nat) (l : ListId) :
    Formula × List ElementId × Nat :=
  (state.1.vacate l, state.2.1 ++ state.1.elements l,
    if l = caller then state.2.1.length else state.2.2)

theorem collect_eq_foldl (f : Formula) (caller : ListId) (ls : List ListId) :
    f.collect caller ls = ls.foldl (collectStep caller) (f, [], 0) := by
  unfold Formula.collect
  congr 1
  funext state l
  simp only [drain_snd, collectStep]
  rfl

/-- Lists of an element other than the caller's are emptied one after the other. -/
theorem foldl (hv : f.Vacated e done g contents) {caller : ListId} (offset : Nat)
    (ho : ∀ l ∈ rest, f.owner l = some e) (hn : (done ++ rest).Nodup) (hc : caller ∉ rest) :
    ∃ g', rest.foldl (collectStep caller) (g, contents, offset) =
        (g', contents ++ rest.flatMap f.elements, offset) ∧
      f.Vacated e (done ++ rest) g' (contents ++ rest.flatMap f.elements) := by
  induction rest generalizing g done contents with
  | nil => exact ⟨g, by simp, by simpa using hv⟩
  | cons l rest ih =>
    have hl : l ∉ done := fun hc => by
      rw [List.nodup_append] at hn
      exact hn.2.2 l hc l (by simp) rfl
    obtain ⟨hne, hc⟩ : caller ≠ l ∧ caller ∉ rest := by simpa using hc
    have hv' := hv.step hl (ho l (by simp))
    have hstep : collectStep caller (g, contents, offset) l =
        (g.vacate l, contents ++ g.elements l, offset) := by
      rw [collectStep, if_neg hne.symm]
    rw [hv.elements l hl] at hv' hstep
    have hn' : (done ++ [l] ++ rest).Nodup := by simpa using hn
    obtain ⟨g', heq, hv'⟩ := ih hv' (fun l' hl' => ho l' (List.mem_cons_of_mem _ hl')) hn' hc
    rw [List.foldl_cons, hstep, heq]
    exact ⟨g', by simp, by simpa using hv'⟩

/-- Emptying all lists of an element hands out what they held, in order, and says how much of it
lay before what the caller's list held. -/
theorem collect (hf : f.Tidy) (hp : f.parent e = some outer) {caller : ListId}
    {left right : List ListId} (hl : f.listsOf e = left ++ caller :: right) :
    ∃ g, f.collect caller (f.element e).lists =
        (g, (f.listsOf e).flatMap f.elements, (left.flatMap f.elements).length) ∧
      f.Vacated e (f.listsOf e) g ((f.listsOf e).flatMap f.elements) := by
  have hlists : (f.element e).lists = left ++ caller :: right := hl
  have hw := hf.whole e outer hp
  have howns : ∀ l ∈ left ++ caller :: right, f.owner l = some e := hl ▸ hw.owns
  have hnodup : (left ++ caller :: right).Nodup := hl ▸ hw.nodup
  obtain ⟨hout, -⟩ := List.nodup_cons.mp (List.nodup_middle.mp hnodup)
  obtain ⟨hleft, hright⟩ := not_or.mp (mt List.mem_append.mpr hout)
  -- The lists before the caller's, that list itself, and those behind it.
  obtain ⟨g₁, heq₁, hv₁⟩ := (refl hf.toSound e).foldl 0
    (fun l hl => howns l (List.mem_append_left _ hl)) (List.nodup_append.mp hnodup).1 hleft
  simp only [List.nil_append] at heq₁ hv₁
  have hv₂ := hv₁.step hleft (howns caller (by simp))
  have hstep : collectStep caller (g₁, left.flatMap f.elements, 0) caller =
      (g₁.vacate caller, left.flatMap f.elements ++ g₁.elements caller,
        (left.flatMap f.elements).length) := by
    rw [collectStep, if_pos rfl]
  rw [hv₁.elements caller hleft] at hv₂ hstep
  obtain ⟨g₃, heq₃, hv₃⟩ := hv₂.foldl (left.flatMap f.elements).length
    (fun l hl => howns l (by simp [hl])) (by simpa using hnodup) hright
  rw [collect_eq_foldl, hlists, List.foldl_append, heq₁, List.foldl_cons, hstep, heq₃]
  exact ⟨g₃, by simp [hl], by simpa [hl] using hv₃⟩

section Outer

variable (hf : f.Tidy) (hr : f.Reachable outer) (hp : f.parent e = some outer)
  (hls : ∀ l ∈ ls, l ∈ f.listsOf e) (hv : f.Vacated e ls g contents)

include hf hr hp hls

/-- A list that holds an element is none of the lists of the element. -/
theorem outer_not_mem : outer ∉ ls := fun hc =>
  hf.toSound.not_mem_listsOf hr (hf.mem_elements.mpr hp) (hls outer hc)

include hv

theorem elements_outer : g.elements outer = f.elements outer :=
  hv.elements outer (outer_not_mem hf hr hp hls)

/-- The element itself stays where it is. -/
theorem stays : g.parent e = some outer ∧ g.position e = f.position e := by
  rw [← hv.linked.link, hv.elements_outer hf hr hp hls]
  exact hf.getElem?_position hp

theorem ne_of_mem (hc : e' ∈ contents) : e' ≠ e := by
  rintro rfl
  obtain ⟨l, hl, hl'⟩ := hv.origin e' hc
  obtain rfl := Option.some.inj (hp.symm.trans hl')
  exact outer_not_mem hf hr hp hls hl

/-- What lies around the element is still in its place. -/
theorem reachable_outer (hroot : h.root = g.root)
    (hel : ∀ l ≠ outer, h.elements l = g.elements l)
    (hlists : ∀ e' ≠ e, h.listsOf e' = g.listsOf e') : h.Reachable outer := by
  refine hf.toSound.reachable_of_agree hr (hroot.trans hv.root) fun l _ hnot e' he' i hi => ?_
  have hlo : l ≠ outer := by
    rintro rfl
    exact hnot 0 (.here l)
  have hll : l ∉ ls := fun hc =>
    hnot 1 ((Below.here outer).inside (hf.mem_elements.mpr hp) (hls l hc))
  have hee : e' ≠ e := by
    rintro rfl
    exact hlo (Option.some.inj ((hf.mem_elements.mp he').symm.trans hp))
  rw [hel l hlo, hv.elements l hll, hlists e' hee, listsOf, hv.element]
  exact ⟨he', hi⟩

theorem ready (hx : ∀ e' ≠ e, g.element e' = h.element e' ∧ g.parent e' = h.parent e')
    (hw : ∀ e' ≠ e, g.Whole e' → h.Whole e') (hhas : ∀ e', g.HasElement e' → h.HasElement e') :
    h.Ready contents where
  nodup := hv.loose.nodup
  hasElement c hc := hhas c (hv.loose.hasElement c hc)
  parent c hc := by
    rw [← (hx c (hv.ne_of_mem hf hr hp hls hc)).2]
    exact hv.loose.parent c hc
  whole c hc := by
    have hne := hv.ne_of_mem hf hr hp hls hc
    obtain ⟨l, -, hl⟩ := hv.origin c hc
    exact hw c hne (hv.whole c hne (hf.whole c l hl))
  filled c hc := by
    obtain ⟨l, -, hl⟩ := hv.origin c hc
    rw [← (hx c (hv.ne_of_mem hf hr hp hls hc)).1, hv.element]
    exact hf.filled c l hl

/-- An element that is emptied may give way to what it held. -/
theorem tidy_replace : (g.replaceRange outer (f.position e) (f.position e + 1) contents).1.Tidy ∧
    (g.replaceRange outer (f.position e) (f.position e + 1) contents).1.Reachable outer := by
  obtain ⟨hpe, hpos⟩ := hv.stays hf hr hp hls
  have hhas := hv.linked.hasList hpe
  have hready : g.Ready contents := hv.ready hf hr hp hls (by simp) (by simp) (by simp)
  have hgone := hv.linked.loose_range hhas (Nat.le_succ (f.position e)) hready.toLoose
  rw [← hpos, range_position hv.linked hpe, hpos] at hgone
  have hparent : ∀ e' l',
      (g.replaceRange outer (f.position e) (f.position e + 1) contents).1.parent e' = some l' →
        e' ≠ e ∧ (f.parent e' = some l' ∨ e' ∈ contents) := fun e' l' hp' => by
    refine ⟨?_, ?_⟩
    · rintro rfl
      simp [hgone.parent e' (by simp)] at hp'
    · exact (hv.linked.parent_replaceRange_of_some hhas hready.toLoose hp').imp
        (hv.parent e' l') And.left
  refine ⟨⟨⟨hv.linked.replaceRange hhas (Nat.le_succ _) hready.toLoose, fun e' l' hp' => ?_⟩,
    fun e' l' hp' => ?_⟩, ?_⟩
  · rw [whole_replaceRange]
    obtain ⟨hne, hf' | hc⟩ := hparent e' l' hp'
    · exact hv.whole e' hne (hf.whole e' l' hf')
    · exact hready.whole e' hc
  · rw [element_replaceRange]
    obtain ⟨hne, hf' | hc⟩ := hparent e' l' hp'
    · rw [hv.element]
      exact hf.filled e' l' hf'
    · exact hready.filled e' hc
  · refine hv.reachable_outer hf hr hp hls root_replaceRange (fun l hl => ?_) fun _ _ => ?_
    · rw [elements_replaceRange hhas, if_neg hl.symm]
    · rw [listsOf_replaceRange]

/-- An element may go on with the lists that it still has. -/
theorem tidy_setElement (hx : x.Filled) (hn : x.lists.Nodup)
    (hxl : ∀ l, l ∈ x.lists ↔ l ∈ f.listsOf e ∧ l ∉ ls) :
    (g.setElement e x).Tidy ∧ (g.setElement e x).Ready contents ∧
      (g.setElement e x).Reachable outer := by
  obtain ⟨hpe, -⟩ := hv.stays hf hr hp hls
  have hhas := hasElement_of_parent hpe
  have hne : ∀ {e'}, e' ≠ e → (g.setElement e x).element e' = g.element e' := fun hne => by
    rw [element_setElement, if_neg fun hc => hne hc.1.symm]
  have hown : ∀ l ∈ x.lists, g.owner l = some e := fun l hl => by
    obtain ⟨hl, hnot⟩ := (hxl l).mp hl
    rw [hv.owner l hnot, hf.toSound.owner_of_mem (hf.mem_elements.mpr hp) hl]
  refine ⟨⟨⟨(hv.linked.mono (by simp)).setElement hhas (fun l ho => ?_) fun l hl =>
    hasList_of_owner (hown l hl), fun e' l' hp' => ?_⟩, fun e' l' hp' => ?_⟩, ?_, ?_⟩
  · refine (hxl l).mpr ⟨?_, fun hc => by simp [hv.disowned l hc] at ho⟩
    have := (hv.linked.owned l e ho).resolve_right (by simp)
    rwa [listsOf, hv.element] at this
  · rw [parent_setElement] at hp'
    by_cases hee : e' = e
    · subst hee
      exact whole_setElement_self x hhas hown hn
    · rw [whole_setElement_of_ne x (Ne.symm hee)]
      exact hv.whole e' hee (hf.whole e' l' (hv.parent e' l' hp'))
  · rw [parent_setElement] at hp'
    by_cases hee : e' = e
    · subst hee
      rwa [element_setElement, if_pos ⟨rfl, hhas⟩]
    · rw [hne hee, hv.element]
      exact hf.filled e' l' (hv.parent e' l' hp')
  · refine hv.ready hf hr hp hls (fun e' hee => ⟨(hne hee).symm, by simp⟩) (fun e' hee hw => ?_)
      fun e' he' => by simpa [HasElement, setElement] using he'
    rwa [whole_setElement_of_ne x hee.symm]
  · refine hv.reachable_outer hf hr hp hls rfl (fun l _ => rfl) fun e' hee => ?_
    rw [listsOf, hne hee, listsOf]

end Outer

end Vacated

end FormulaEditor.Formula
