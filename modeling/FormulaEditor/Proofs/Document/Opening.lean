import FormulaEditor.Document.Insert
import FormulaEditor.Proofs.Document.Words

/-!
# Opening scripts

Opening a half of scripts is the one edit that changes an element in place. Apart from the scripts
themselves and the half, which may be a new list, the formula stays as it was.
-/

namespace FormulaEditor.Formula

variable {f g : Formula} {e e' : ElementId} {l half : ListId} {es : List ElementId}
  {exponent subscript acceptor : Option ListId}

/-- Another formula in which everything stands where it stood; there may be new lists without
content. -/
structure SamePlaces (f g : Formula) : Prop where
  root : g.root = f.root
  size_le : f.listSlots.size ≤ g.listSlots.size
  hasElement : ∀ e, f.HasElement e → g.HasElement e
  parent : ∀ e, g.parent e = f.parent e
  position : ∀ e, g.position e = f.position e
  elements : ∀ l, g.elements l = f.elements l
  owner : ∀ l, f.HasList l → g.owner l = f.owner l

/-- The second formula is the first one after a half of some scripts was opened. -/
structure Opened (f : Formula) (e : ElementId) (g : Formula) (half : ListId) : Prop
    extends SamePlaces f g where
  linked : g.Linked []
  element : ∀ e' ≠ e, g.element e' = f.element e'
  keeps_lists : ∀ l ∈ f.listsOf e, l ∈ g.listsOf e
  mem_half : half ∈ g.listsOf e
  whole : g.Whole e
  filled : (g.element e).Filled
  acceptor : ∃ exponent subscript, g.element e = .scripts exponent subscript (some half)

theorem SamePlaces.refl (f : Formula) : f.SamePlaces f :=
  ⟨rfl, Nat.le_refl _, fun _ h => h, fun _ => rfl, fun _ => rfl, fun _ => rfl, fun _ _ => rfl⟩

theorem SamePlaces.trans {h : Formula} (hfg : f.SamePlaces g) (hgh : g.SamePlaces h) :
    f.SamePlaces h where
  root := hgh.root.trans hfg.root
  size_le := Nat.le_trans hfg.size_le hgh.size_le
  hasElement e he := hgh.hasElement e (hfg.hasElement e he)
  parent e := (hgh.parent e).trans (hfg.parent e)
  position e := (hgh.position e).trans (hfg.position e)
  elements l := (hgh.elements l).trans (hfg.elements l)
  owner l hl := (hgh.owner l (Nat.lt_of_lt_of_le hl hfg.size_le)).trans (hfg.owner l hl)

/-- A new element that stands nowhere changes no place. -/
theorem SamePlaces.allocElement (f : Formula) (x : Element) :
    f.SamePlaces (f.allocElement x).1 where
  root := rfl
  size_le := Nat.le_refl _
  hasElement e he := by
    simp only [HasElement, size_elementSlots_allocElement] at he ⊢
    omega
  parent e := parent_allocElement x
  position e := position_allocElement x
  elements l := rfl
  owner l hl := rfl

/-- What an element is has no bearing on where it stands. -/
theorem SamePlaces.setElement (f : Formula) (e : ElementId) (x : Element) :
    f.SamePlaces (f.setElement e x) where
  root := rfl
  size_le := Nat.le_refl _
  hasElement e' he' := by simpa [HasElement, Formula.setElement] using he'
  parent e' := parent_setElement x
  position e' := position_setElement x
  elements l := rfl
  owner l hl := rfl

/-- A new list without content changes no place. -/
theorem SamePlaces.adoptList (f : Formula) (e : ElementId) : f.SamePlaces (f.adoptList e []).1 where
  root := root_adoptList
  size_le := by simp
  hasElement e he := by simpa [HasElement] using he
  parent e' := by rw [parent_adoptList (by simp), if_neg List.not_mem_nil]
  position e' := position_adoptList_of_not_mem List.not_mem_nil
  elements l := by
    rw [elements_adoptList]
    split
    · rename_i hl
      rw [Formula.elements, ← hl, listSlot_of_not_hasList not_hasList_nextList]
    · rfl
  owner l hl := by
    rw [owner_adoptList, if_neg]
    rintro rfl
    exact not_hasList_nextList hl

/-- The last step of opening a half: the scripts are put in with it, all their lists there. -/
theorem Opened.of_setElement (hs : f.SamePlaces g) (hg : g.Linked [e]) (he : f.HasElement e)
    (helement : ∀ e', g.element e' = f.element e')
    (hlists : ∀ l, l ∈ (Element.scripts exponent subscript (some half)).lists ↔
      g.owner l = some e)
    (hn : (Element.scripts exponent subscript (some half)).lists.Nodup)
    (hkeep : ∀ l ∈ f.listsOf e, g.owner l = some e)
    (hh : exponent = some half ∨ subscript = some half) :
    f.Opened e (g.setElement e (.scripts exponent subscript (some half))) half := by
  have hge := hs.hasElement e he
  have hself : (g.setElement e (.scripts exponent subscript (some half))).element e =
      .scripts exponent subscript (some half) := by
    rw [element_setElement, if_pos ⟨rfl, hge⟩]
  exact {
    toSamePlaces := hs.trans (.setElement g e _)
    linked := hg.setElement hge (fun l ho => (hlists l).mpr ho) fun l hl =>
      hasList_of_owner ((hlists l).mp hl)
    element := fun e' hne => by
      rw [element_setElement, if_neg fun hc => hne hc.1.symm, helement]
    keeps_lists := fun l hl => by
      rw [listsOf, hself]
      exact (hlists l).mpr (hkeep l hl)
    mem_half := by
      rw [listsOf, hself]
      obtain rfl | rfl := hh <;> simp [Element.lists]
    whole := whole_setElement_self _ hge (fun l hl => (hlists l).mp hl) hn
    filled := by
      rw [hself]
      refine ⟨?_, fun l hl => hl ▸ hh⟩
      obtain rfl | rfl := hh
      · exact .inl rfl
      · exact .inr rfl
    acceptor := ⟨exponent, subscript, hself⟩ }

section Opening

variable (hf : f.Tidy) (he : f.HasElement e) (hw : f.Whole e)
  (hx : f.element e = .scripts exponent subscript acceptor)

include hf hw hx

/-- The lists that name scripts as their owner are the halves. -/
theorem mem_halves_iff (l : ListId) :
    l ∈ exponent.toList ++ subscript.toList ↔ f.owner l = some e := by
  have hlists : f.listsOf e = exponent.toList ++ subscript.toList := by
    rw [listsOf, hx]
    rfl
  rw [← hlists]
  exact ⟨hw.owns l, fun ho => (hf.owned l e ho).resolve_right List.not_mem_nil⟩

include he

/-- Opening a half that is there makes it the acceptor. -/
theorem opened_old (hh : exponent = some half ∨ subscript = some half) :
    f.Opened e (f.setElement e (.scripts exponent subscript (some half))) half := by
  refine .of_setElement (.refl f) (hf.mono (by simp)) he (fun _ => rfl)
    (mem_halves_iff hf hw hx) ?_ hw.owns hh
  have hn := hw.nodup
  rwa [listsOf, hx] at hn

/-- Opening a half that is not there adds it. -/
theorem opened_new {exponent' subscript' : Option ListId}
    (hlists : (exponent'.toList ++ subscript'.toList).Perm
      (f.nextList :: (exponent.toList ++ subscript.toList)))
    (hh : exponent' = some f.nextList ∨ subscript' = some f.nextList) :
    f.Opened e ((f.adoptList e []).1.setElement e
      (.scripts exponent' subscript' (some f.nextList))) f.nextList := by
  have hold := mem_halves_iff hf hw hx
  refine .of_setElement (.adoptList f e) ?_ he (fun _ => element_adoptList) (fun l => ?_) ?_
    (fun l hl => ?_) hh
  · exact (hf.mono (by simp)).adoptList (by simp) .nil
  · rw [owner_adoptList]
    change l ∈ exponent'.toList ++ subscript'.toList ↔ _
    rw [hlists.mem_iff, List.mem_cons, hold]
    by_cases h : f.nextList = l
    · simp [h]
    · simp [h, Ne.symm h]
  · refine hlists.nodup_iff.mpr (List.nodup_cons.mpr ⟨fun hc => ?_, ?_⟩)
    · exact not_hasList_nextList (hasList_of_owner ((hold _).mp hc))
    · have hn := hw.nodup
      rwa [listsOf, hx] at hn
  · have ho := hw.owns l hl
    rw [owner_adoptList, if_neg, ho]
    rintro rfl
    exact not_hasList_nextList (hasList_of_owner ho)

/-- Opening a half of scripts succeeds. -/
theorem openScript_spec (superscript : Bool) :
    ∃ g half, f.openScript e superscript = .ok (g, half) ∧ f.Opened e g half := by
  unfold openScript
  rw [hx]
  cases superscript with
  | true =>
    cases exponent with
    | some half => exact ⟨_, half, rfl, opened_old hf he hw hx (.inl rfl)⟩
    | none => exact ⟨_, _, rfl, opened_new hf he hw hx (List.Perm.refl _) (.inl rfl)⟩
  | false =>
    cases subscript with
    | some half => exact ⟨_, half, rfl, opened_old hf he hw hx (.inr rfl)⟩
    | none =>
      refine ⟨_, _, rfl, opened_new hf he hw hx ?_ (.inr rfl)⟩
      change (exponent.toList ++ [f.nextList]).Perm (f.nextList :: (exponent.toList ++ []))
      rw [List.append_nil]
      exact List.perm_append_singleton _ _

end Opening

namespace Opened

variable (h : f.Opened e g half)

include h

theorem keeps : f.Keeps g where
  root := h.root
  link l e' he' i hi := by
    refine ⟨by rwa [h.elements], ?_⟩
    by_cases hee : e' = e
    · subst hee
      exact h.keeps_lists i hi
    · rwa [listsOf, h.element e' hee]

theorem tidy (hf : f.Tidy) : g.Tidy where
  toLinked := h.linked
  whole e' l hp := by
    rw [h.parent] at hp
    by_cases hee : e' = e
    · subst hee
      exact h.whole
    · have hlists : g.listsOf e' = f.listsOf e' := by rw [listsOf, h.element e' hee, listsOf]
      have hw := hf.whole e' l hp
      refine ⟨fun i hi => ?_, hlists ▸ hw.nodup⟩
      rw [hlists] at hi
      rw [h.owner i (hf.allocated e' i hi)]
      exact hw.owns i hi
  filled e' l hp := by
    rw [h.parent] at hp
    by_cases hee : e' = e
    · subst hee
      exact h.filled
    · rw [h.element e' hee]
      exact hf.filled e' l hp

theorem isPlace {p : Place} (hp : f.IsPlace p) : g.IsPlace p where
  reachable := h.keeps.reachable hp.reachable
  le_length := by
    rw [length, h.elements]
    exact hp.le_length

theorem ready (he : f.HasElement e) (hp : f.parent e = none) : g.Ready [e] where
  toLoose := .singleton (h.hasElement e he) (by rw [h.parent, hp])
  whole := by simpa using h.whole
  filled := by simpa using h.filled

end Opened

/-- Places around a place are the same where everything stands where it stood. -/
theorem SamePlaces.enclosing (h : f.SamePlaces g) (hf : f.Tidy) {p : Place}
    (hp : f.Reachable p.list) : g.enclosing p = f.enclosing p := by
  obtain ⟨n, hn⟩ := hp
  have hlt := hf.toSound.depth_lt hn
  exact hf.enclosingWithin_congr hn (fun l hl => h.owner l (hf.hasList_of_reachable hl))
    h.parent h.position hlt (Nat.lt_of_lt_of_le hlt h.size_le)

end FormulaEditor.Formula

namespace FormulaEditor.Caret

/-- A selection is known from where everything stands. -/
theorem Valid.selected?_congr {f g : Formula} {c : Caret} (h : c.Valid f) (hf : f.Tidy)
    (hs : f.SamePlaces g) : c.selected? g = c.selected? f := by
  unfold Caret.selected? Caret.selection?
  cases ha : c.anchor with
  | none => rfl
  | some anchor =>
    simp only [hs.enclosing hf h.place.reachable, hs.enclosing hf (h.anchor anchor ha).reachable]

end FormulaEditor.Caret
