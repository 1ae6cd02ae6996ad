import FormulaEditor.Proofs.Formula.Reading

/-!
# Links of a formula

Lists know their elements and elements know their place; elements know their lists and lists know
their owner. `Linked` says that what one side knows agrees with what the other side knows, `Sound`
that besides every element inside a list owns the lists it refers to. Each primitive change of a
formula keeps both.

While an element is under construction its lists already name it as their owner, but it does not
refer to them yet. Such elements are listed in the second argument of `Linked` and `Sound`.
-/

namespace FormulaEditor.Formula

variable {f : Formula} {e e' : ElementId} {l l' : ListId} {es : List ElementId}
  {pending : List ElementId}

/-- The lists of an element are its own, and they are different lists. -/
structure Whole (f : Formula) (e : ElementId) : Prop where
  owns : ∀ l ∈ f.listsOf e, f.owner l = some e
  nodup : (f.listsOf e).Nodup

theorem whole_iff :
    f.Whole e ↔ (∀ l ∈ f.listsOf e, f.owner l = some e) ∧ (f.listsOf e).Nodup :=
  ⟨fun h => ⟨h.owns, h.nodup⟩, fun h => ⟨h.1, h.2⟩⟩

/-- The two ends of every link agree, and handles of lists are handles of slots. -/
structure Linked (f : Formula) (pending : List ElementId) : Prop where
  /-- An element stands where it says, and only there. -/
  link : ∀ e l i, (f.elements l)[i]? = some e ↔ f.parent e = some l ∧ f.position e = i
  owned : ∀ l e, f.owner l = some e → l ∈ f.listsOf e ∨ e ∈ pending
  allocated : ∀ e, ∀ l ∈ f.listsOf e, f.HasList l
  root_owner : f.owner f.root = none
  root_hasList : f.HasList f.root

/-- All links agree, and elements inside lists are whole. -/
structure Sound (f : Formula) (pending : List ElementId) : Prop extends Linked f pending where
  whole : ∀ e l, f.parent e = some l → f.Whole e

/-- Different elements that stand nowhere. -/
structure Loose (f : Formula) (es : List ElementId) : Prop where
  nodup : es.Nodup
  hasElement : ∀ e ∈ es, f.HasElement e
  parent : ∀ e ∈ es, f.parent e = none

theorem Loose.nil : f.Loose [] :=
  ⟨List.nodup_nil, by simp, by simp⟩

theorem Loose.singleton (h : f.HasElement e) (hp : f.parent e = none) : f.Loose [e] :=
  ⟨List.nodup_singleton e, by simpa using h, by simpa using hp⟩

namespace Linked

theorem mem_elements (h : f.Linked pending) : e ∈ f.elements l ↔ f.parent e = some l := by
  constructor
  · intro he
    obtain ⟨i, hi⟩ := List.mem_iff_getElem?.mp he
    exact ((h.link e l i).mp hi).1
  · intro he
    exact List.mem_of_getElem? ((h.link e l (f.position e)).mpr ⟨he, rfl⟩)

theorem getElem?_position (h : f.Linked pending) (he : f.parent e = some l) :
    (f.elements l)[f.position e]? = some e :=
  (h.link e l _).mpr ⟨he, rfl⟩

theorem position_lt (h : f.Linked pending) (he : f.parent e = some l) :
    f.position e < f.length l :=
  (List.getElem?_eq_some_iff.mp (h.getElem?_position he)).1

theorem nodup_elements (h : f.Linked pending) (l : ListId) : (f.elements l).Nodup := by
  refine List.nodup_iff_getElem?_ne_getElem?.mpr fun i j hij hj he => ?_
  obtain ⟨e, hi⟩ : ∃ e, (f.elements l)[i]? = some e :=
    ⟨_, List.getElem?_eq_getElem (Nat.lt_trans hij hj)⟩
  have hpos := ((h.link e l i).mp hi).2
  have hpos' := ((h.link e l j).mp (he ▸ hi)).2
  omega

theorem hasElement (h : f.Linked pending) (he : e ∈ f.elements l) : f.HasElement e :=
  hasElement_of_parent (h.mem_elements.mp he)

theorem hasList (h : f.Linked pending) (he : f.parent e = some l) : f.HasList l :=
  hasList_of_mem (h.mem_elements.mpr he)

end Linked

/-! ## Replacing a run -/

section Replacing

variable {start stop : Nat}

/-- A range splits a list into what is before it, the range, and what is after it. -/
theorem elements_eq_range (h : start ≤ stop) :
    f.elements l = (f.elements l).take start ++ f.range l start stop ++ (f.elements l).drop stop := by
  have hd : ((f.elements l).drop start).drop (stop - start) = (f.elements l).drop stop := by
    rw [List.drop_drop]
    congr 1
    omega
  rw [List.append_assoc, range, ← hd, List.take_append_drop, List.take_append_drop]

theorem mem_range_or (h : start ≤ stop) (he : e ∈ f.elements l) (es : List ElementId) :
    e ∈ f.range l start stop ∨ e ∈ f.replaced l start stop es := by
  rw [elements_eq_range h] at he
  simp only [List.mem_append] at he
  simp only [replaced, List.mem_append]
  tauto

theorem mem_elements_of_mem_range (he : e ∈ f.range l start stop) : e ∈ f.elements l :=
  List.mem_of_mem_drop (List.mem_of_mem_take he)

theorem mem_of_mem_replaced (he : e ∈ f.replaced l start stop es) :
    e ∈ f.elements l ∨ e ∈ es := by
  simp only [replaced, List.mem_append] at he
  obtain (he | he) | he := he
  · exact .inl (List.mem_of_mem_take he)
  · exact .inr he
  · exact .inl (List.mem_of_mem_drop he)

theorem length_replaced (h : start ≤ stop) (hs : stop ≤ f.length l) :
    (f.replaced l start stop es).length = f.length l - (stop - start) + es.length := by
  simp only [replaced, length] at *
  simp only [List.length_append, List.length_take, List.length_drop]
  omega

theorem nodup_replaced (h : f.Linked pending) (hs : start ≤ stop) (hes : f.Loose es) :
    (f.replaced l start stop es).Nodup := by
  have hd := h.nodup_elements l
  rw [elements_eq_range hs] at hd
  have hout : ∀ e ∈ f.elements l, e ∉ es := fun e he he' => by
    simpa [hes.parent e he'] using h.mem_elements.mp he
  simp only [List.nodup_append] at hd
  simp only [replaced, List.nodup_append, List.mem_append]
  obtain ⟨⟨htake, -, -⟩, hdrop, hne⟩ := hd
  refine ⟨⟨htake, hes.nodup, ?_⟩, hdrop, ?_⟩
  · rintro a ha b hb rfl
    exact hout a (List.mem_of_mem_take ha) hb
  · rintro a (ha | ha) b hb rfl
    · exact hne a (List.mem_append.mpr (.inl ha)) a hb rfl
    · exact hout a (List.mem_of_mem_drop hb) ha

theorem Linked.range_not_mem_replaced (h : f.Linked pending) (hs : start ≤ stop)
    (hes : f.Loose es) (he : e ∈ f.range l start stop) : e ∉ f.replaced l start stop es := by
  have hd := h.nodup_elements l
  rw [elements_eq_range hs, List.append_assoc, List.nodup_append] at hd
  obtain ⟨-, hd, htake⟩ := hd
  rw [List.nodup_append] at hd
  simp only [replaced, List.mem_append]
  rintro ((hmem | hmem) | hmem)
  · exact htake e hmem e (List.mem_append.mpr (.inl he)) rfl
  · simpa [hes.parent e hmem] using h.mem_elements.mp (mem_elements_of_mem_range he)
  · exact hd.2.2 e he e hmem rfl

theorem Linked.hasElement_replaced (h : f.Linked pending) (hes : f.Loose es) :
    ∀ e ∈ f.replaced l start stop es, f.HasElement e := fun e he =>
  (mem_of_mem_replaced he).elim h.hasElement (hes.hasElement e)

theorem Linked.replaceRange (h : f.Linked pending) (hl : f.HasList l) (hs : start ≤ stop)
    (hes : f.Loose es) : (f.replaceRange l start stop es).1.Linked pending where
  link e l' i := by
    have hd := nodup_replaced (l := l) h hs hes
    have hhas : ∀ e ∈ f.replaced l start stop es, f.HasElement e := h.hasElement_replaced hes
    rw [elements_replaceRange hl, parent_replaceRange hl hhas]
    by_cases hmem : e ∈ f.replaced l start stop es
    · -- The element is in the changed list now, at the place that list gives it.
      obtain ⟨j, hj⟩ := List.mem_iff_getElem?.mp hmem
      rw [if_pos hmem, position_replaceRange hl hd hj (hhas e hmem)]
      by_cases hll : l = l'
      · subst hll
        rw [if_pos rfl]
        constructor
        · intro hi
          refine ⟨rfl, (List.getElem?_inj (List.getElem?_eq_some_iff.mp hj).1 hd).mp ?_⟩
          rw [hj, hi]
        · rintro ⟨-, rfl⟩
          exact hj
      · rw [if_neg hll]
        refine ⟨fun hi => ?_, fun hi => absurd (Option.some.inj hi.1) hll⟩
        have hp := ((h.link e l' i).mp hi).1
        obtain hold | hnew := mem_of_mem_replaced hmem
        · exact absurd (Option.some.inj ((h.mem_elements.mp hold).symm.trans hp)) hll
        · simp [hes.parent e hnew] at hp
    · rw [if_neg hmem, position_replaceRange_of_not_mem hl hmem]
      by_cases hll : l = l'
      · subst hll
        rw [if_pos rfl]
        refine ⟨fun hi => absurd (List.mem_of_getElem? hi) hmem, fun ⟨hp, _⟩ => ?_⟩
        split at hp
        · cases hp
        · rename_i hr
          exact ((mem_range_or hs (h.mem_elements.mpr hp) es).elim hr hmem).elim
      · rw [if_neg hll, h.link]
        refine and_congr_left fun _ => ?_
        split
        · rename_i hr
          have hp := h.mem_elements.mp (mem_elements_of_mem_range hr)
          simp [hp, hll]
        · rfl
  owned l' e := by simpa using h.owned l' e
  allocated e l' := by simpa [HasList] using h.allocated e l'
  root_owner := by simpa using h.root_owner
  root_hasList := by simpa [HasList] using h.root_hasList

@[simp] theorem whole_replaceRange :
    (f.replaceRange l start stop es).1.Whole e ↔ f.Whole e := by
  simp only [whole_iff, listsOf_replaceRange, owner_replaceRange]

theorem Linked.parent_replaceRange_of_some (h : f.Linked pending) (hl : f.HasList l)
    (hes : f.Loose es)
    (hp : (f.replaceRange l start stop es).1.parent e = some l') :
    f.parent e = some l' ∨ e ∈ es ∧ l' = l := by
  rw [parent_replaceRange hl (h.hasElement_replaced hes)] at hp
  split at hp
  · rename_i hmem
    cases hp
    exact (mem_of_mem_replaced hmem).imp h.mem_elements.mp fun he => ⟨he, rfl⟩
  · split at hp
    · cases hp
    · exact .inl hp

theorem Sound.replaceRange (h : f.Sound pending) (hl : f.HasList l) (hs : start ≤ stop)
    (hes : f.Loose es) (hw : ∀ e ∈ es, f.Whole e) :
    (f.replaceRange l start stop es).1.Sound pending where
  toLinked := h.toLinked.replaceRange hl hs hes
  whole e l' hp := by
    rw [whole_replaceRange]
    exact (h.parent_replaceRange_of_some hl hes hp).elim (h.whole e l') fun he => hw e he.1

/-- What was in the range stands nowhere any more. -/
theorem Linked.loose_range (h : f.Linked pending) (hl : f.HasList l) (hs : start ≤ stop)
    (hes : f.Loose es) :
    (f.replaceRange l start stop es).1.Loose (f.range l start stop) where
  nodup := (h.nodup_elements l).sublist ((List.take_sublist ..).trans (List.drop_sublist ..))
  hasElement e he := by
    simpa [HasElement] using h.hasElement (mem_elements_of_mem_range he)
  parent e he := by
    rw [parent_replaceRange hl (h.hasElement_replaced hes),
      if_neg (h.range_not_mem_replaced hs hes he), if_pos he]

end Replacing

/-! ## Disowning, exchanging, allocating -/

theorem Linked.disown (h : f.Linked pending) (l : ListId) : (f.disown l).Linked pending where
  link e l' i := by
    rw [elements_disown]
    exact h.link e l' i
  owned l' e ho := by
    rw [owner_disown] at ho
    split at ho
    · cases ho
    · exact h.owned l' e ho
  allocated e l' hl := by
    have := h.allocated e l' hl
    simpa [HasList, Formula.disown] using this
  root_owner := by
    change (f.disown l).owner f.root = none
    rw [owner_disown]
    split
    · rfl
    · exact h.root_owner
  root_hasList := by
    have := h.root_hasList
    simpa [HasList, Formula.disown] using this

theorem listsOf_setElement (x : Element) : (f.setElement e x).listsOf e' =
    if e = e' ∧ f.HasElement e then x.lists else f.listsOf e' := by
  unfold listsOf
  rw [element_setElement]
  split <;> rfl

theorem listsOf_setElement_self (x : Element) (he : f.HasElement e) :
    (f.setElement e x).listsOf e = x.lists := by
  rw [listsOf_setElement, if_pos ⟨rfl, he⟩]

theorem listsOf_setElement_of_ne (x : Element) (h : e ≠ e') :
    (f.setElement e x).listsOf e' = f.listsOf e' := by
  rw [listsOf_setElement, if_neg fun hc => h hc.1]

/-- An element that refers to all lists which name it as their owner is complete. -/
theorem Linked.setElement {x : Element} (h : f.Linked (e :: pending)) (he : f.HasElement e)
    (ho : ∀ l, f.owner l = some e → l ∈ x.lists) (ha : ∀ l ∈ x.lists, f.HasList l) :
    (f.setElement e x).Linked pending where
  link e' l i := by
    rw [parent_setElement, position_setElement]
    exact h.link e' l i
  owned l e' hl := by
    by_cases hee : e = e'
    · subst hee
      rw [listsOf_setElement_self x he]
      exact .inl (ho l hl)
    · rw [listsOf_setElement_of_ne x hee]
      exact (h.owned l e' hl).imp_right fun hm => (List.mem_cons.mp hm).resolve_left (Ne.symm hee)
  allocated e' l hl := by
    by_cases hee : e = e'
    · subst hee
      rw [listsOf_setElement_self x he] at hl
      exact ha l hl
    · rw [listsOf_setElement_of_ne x hee] at hl
      exact h.allocated e' l hl
  root_owner := h.root_owner
  root_hasList := h.root_hasList

theorem Linked.mono {pending' : List ElementId} (h : f.Linked pending)
    (hp : ∀ e ∈ pending, e ∈ pending') : f.Linked pending' :=
  { h with owned := fun l e ho => (h.owned l e ho).imp_right (hp e) }

theorem whole_setElement_of_ne (x : Element) (h : e ≠ e') :
    (f.setElement e x).Whole e' ↔ f.Whole e' := by
  have ho : ∀ l, (f.setElement e x).owner l = f.owner l := fun _ => rfl
  simp only [whole_iff, listsOf_setElement_of_ne x h, ho]

theorem whole_setElement_self (x : Element) (he : f.HasElement e)
    (ho : ∀ l ∈ x.lists, f.owner l = some e) (hn : x.lists.Nodup) :
    (f.setElement e x).Whole e :=
  ⟨fun l hl => ho l (by rwa [listsOf_setElement_self x he] at hl),
    by rwa [listsOf_setElement_self x he]⟩

theorem Linked.allocElement {x : Element} (h : f.Linked pending) (hx : x.lists = []) :
    (f.allocElement x).1.Linked pending where
  link e l i := by
    rw [parent_allocElement, position_allocElement]
    exact h.link e l i
  owned l e ho := by
    refine (h.owned l e ho).imp_left fun hl => ?_
    have hne : f.nextElement ≠ e := by
      rintro rfl
      exact not_hasElement_nextElement (hasElement_of_mem_listsOf hl)
    rwa [listsOf, element_allocElement, if_neg hne]
  allocated e l hl := by
    rw [listsOf, element_allocElement] at hl
    split at hl
    · simp [hx] at hl
    · exact h.allocated e l hl
  root_owner := h.root_owner
  root_hasList := h.root_hasList

theorem whole_allocElement {x : Element} (he : f.HasElement e) :
    (f.allocElement x).1.Whole e ↔ f.Whole e := by
  have hne : f.nextElement ≠ e := by
    rintro rfl
    exact not_hasElement_nextElement he
  have hl : (f.allocElement x).1.listsOf e = f.listsOf e := by
    rw [listsOf, element_allocElement, if_neg hne, listsOf]
  have ho : ∀ l, (f.allocElement x).1.owner l = f.owner l := fun _ => rfl
  simp only [whole_iff, hl, ho]

theorem Sound.allocElement {x : Element} (h : f.Sound pending) (hx : x.lists = []) :
    (f.allocElement x).1.Sound pending where
  toLinked := h.toLinked.allocElement hx
  whole e l hp := by
    rw [parent_allocElement] at hp
    exact (whole_allocElement (hasElement_of_parent hp)).mpr (h.whole e l hp)

theorem Linked.adoptList (h : f.Linked pending) (he : e ∈ pending) (hes : f.Loose es) :
    (f.adoptList e es).1.Linked pending where
  link e' l i := by
    rw [elements_adoptList, parent_adoptList hes.hasElement]
    by_cases hmem : e' ∈ es
    · obtain ⟨j, hj⟩ := List.mem_iff_getElem?.mp hmem
      rw [if_pos hmem, position_adoptList hes.nodup hj (hes.hasElement e' hmem)]
      by_cases hl : f.nextList = l
      · rw [if_pos hl]
        constructor
        · intro hi
          refine ⟨congrArg some hl, ?_⟩
          refine (List.getElem?_inj (List.getElem?_eq_some_iff.mp hj).1 hes.nodup).mp ?_
          rw [hj, hi]
        · rintro ⟨-, rfl⟩
          exact hj
      · rw [if_neg hl]
        refine ⟨fun hi => ?_, fun hi => absurd (Option.some.inj hi.1) hl⟩
        simpa [hes.parent e' hmem] using ((h.link e' l i).mp hi).1
    · rw [if_neg hmem, position_adoptList_of_not_mem hmem]
      by_cases hl : f.nextList = l
      · rw [if_pos hl]
        refine ⟨fun hi => absurd (List.mem_of_getElem? hi) hmem, fun hp => ?_⟩
        exact absurd (hl ▸ h.hasList hp.1) not_hasList_nextList
      · rw [if_neg hl]
        exact h.link e' l i
  owned l e' ho := by
    rw [owner_adoptList] at ho
    rw [listsOf_adoptList]
    split at ho
    · cases ho
      exact .inr he
    · exact h.owned l e' ho
  allocated e' l hl := by
    have := h.allocated e' l (by simpa using hl)
    simp only [HasList, size_listSlots_adoptList] at this ⊢
    omega
  root_owner := by
    have hne : f.nextList ≠ f.root := fun hc => not_hasList_nextList (hc ▸ h.root_hasList)
    rw [root_adoptList, owner_adoptList, if_neg hne]
    exact h.root_owner
  root_hasList := by
    have := h.root_hasList
    simp only [HasList, size_listSlots_adoptList, root_adoptList] at this ⊢
    omega

theorem Linked.whole_adoptList (h : f.Linked pending) (hw : f.Whole e') :
    (f.adoptList e es).1.Whole e' where
  owns l hl := by
    rw [listsOf_adoptList] at hl
    have hne : f.nextList ≠ l := fun hc => not_hasList_nextList (hc ▸ h.allocated e' l hl)
    rw [owner_adoptList, if_neg hne]
    exact hw.owns l hl
  nodup := by
    rw [listsOf_adoptList]
    exact hw.nodup

theorem Sound.adoptList (h : f.Sound pending) (he : e ∈ pending) (hes : f.Loose es)
    (hw : ∀ e ∈ es, f.Whole e) : (f.adoptList e es).1.Sound pending where
  toLinked := h.toLinked.adoptList he hes
  whole e' l hp := by
    refine h.toLinked.whole_adoptList ?_
    rw [parent_adoptList hes.hasElement] at hp
    split at hp
    · rename_i hmem
      exact hw e' hmem
    · exact h.whole e' l hp

end FormulaEditor.Formula
