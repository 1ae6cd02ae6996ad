import FormulaEditor.Proofs.Document.Compact
import FormulaEditor.Proofs.Document.Embedding

/-!
# Compaction and embedding

A compacted document is carried by the document it was made of. Two documents of which the first is
carried by the second are the same once they are compacted, because the handles given out depend on
the order of the content only.
-/

namespace FormulaEditor

namespace Element

variable {ρ : ListId → Option ListId} {k : ListId → ListId} {x y : Element}

/-- Renaming there and back. -/
theorem rename_of_renameLists? (hk : ∀ {l l'}, ρ l = some l' → k l' = l)
    (h : x.renameLists? ρ = some y) : y.rename k = x := by
  rcases x with _ | _ | _ | _ | _ | ⟨_ | _, _⟩ | ⟨_ | _, _ | _, _ | _⟩ | _ | _ <;>
    simp only [renameLists?, Option.bind_eq_bind, Option.bind_eq_some_iff, Option.map_eq_some_iff,
      Option.some.injEq] at h <;>
    grind [rename]

theorem renameLists?_rename {ρ' : ListId → Option ListId} (hk : ∀ l, ρ' (k l) = ρ l) :
    (x.rename k).renameLists? ρ' = x.renameLists? ρ := by
  rcases x with _ | _ | _ | _ | _ | ⟨_ | _, _⟩ | ⟨_ | _, _ | _, _ | _⟩ | _ | _ <;>
    simp [rename, renameLists?, hk]

end Element

/-- Renaming an option there and back. -/
theorem map_of_map_eq {α β : Type} {k : α → Option β} {j : β → α} {x : Option α} {y : Option β}
    (hj : ∀ {a b}, k a = some b → j b = a) (h : x.map k = y.map some) : y.map j = x := by
  cases x with
  | none => cases y <;> simp at h ⊢
  | some a =>
    cases y with
    | none => simp at h
    | some b => simpa using hj (by simpa using h)

theorem map_of_map_eq_list {α β : Type} {k : α → Option β} {j : β → α} {as : List α} {bs : List β}
    (hj : ∀ {a b}, k a = some b → j b = a) (h : as.map k = bs.map some) : bs.map j = as := by
  induction as generalizing bs with
  | nil => cases bs <;> simp at h ⊢
  | cons a as ih =>
    cases bs with
    | nil => simp at h
    | cons b bs =>
      simp only [List.map_cons, List.cons.injEq] at h
      rw [List.map_cons, hj h.1, ih h.2]

/-- A numbering of the indices below `n` by indices below `m`, carried on in step from there. -/
def carriedOn (n m : Nat) (k : Nat → Nat) (i : Nat) : Nat :=
  if i < n then k i else m + (i - n)

section CarriedOn

variable {n m i j : Nat} {k : Nat → Nat}

theorem carriedOn_of_lt (hi : i < n) : carriedOn n m k i = k i :=
  if_pos hi

theorem carriedOn_add : carriedOn n m k (n + i) = m + i := by
  rw [carriedOn, if_neg (by omega), Nat.add_sub_cancel_left]

theorem carriedOn_inj (hk : ∀ i < n, k i < m) (hinj : ∀ i < n, ∀ j < n, k i = k j → i = j)
    (h : carriedOn n m k i = carriedOn n m k j) : i = j := by
  unfold carriedOn at h
  split at h <;> split at h
  · exact hinj i ‹_› j ‹_› h
  · have := hk i ‹_›
    omega
  · have := hk j ‹_›
    omega
  · omega

/-- A relation that numbers indices below `m` one by one by the indices below `n` is undone by a
function on all indices that is carried on in step. -/
theorem exists_carriedOn {R : Nat → Nat → Prop} (hsource : ∀ i < n, ∃ j < m, R j i)
    (hlt : ∀ {j i}, R j i → i < n) (hinj : ∀ {i j j'}, R j i → R j' i → j = j')
    (hfun : ∀ {j i i'}, R j i → R j i' → i = i') :
    ∃ k : Nat → Nat, (∀ {i i'}, k i = k i' → i = i') ∧ (∀ {j i}, R j i → k i = j) ∧
      ∀ i, k (n + i) = m + i := by
  have hsource : ∀ i, ∃ j, i < n → j < m ∧ R j i := fun i => by
    by_cases hi : i < n
    · obtain ⟨j, hj⟩ := hsource i hi
      exact ⟨j, fun _ => hj⟩
    · exact ⟨0, fun hc => absurd hc hi⟩
  choose source hsource using hsource
  refine ⟨carriedOn n m source, carriedOn_inj (fun i hi => (hsource i hi).1) ?_, ?_,
    fun i => carriedOn_add⟩
  · intro i hi j hj hij
    exact hfun (hsource i hi).2 (hij ▸ (hsource j hj).2)
  · intro j i hj
    rw [carriedOn_of_lt (hlt hj)]
    exact hinj (hsource i (hlt hj)).2 hj

end CarriedOn

namespace Formula

variable {f g : Formula} {ρ : ListId → Option ListId} {σ : ElementId → Option ElementId}
  {r : Handles} {e e' : ElementId} {l l' : ListId}

theorem getElem?_of_hasElement (he : f.HasElement e) :
    f.elementSlots[e.index]? = some (f.elementSlot e) := by
  rw [elementSlot, Array.getElem?_eq_getElem he]
  rfl

theorem getElem?_of_hasList (hl : f.HasList l) :
    f.listSlots[l.index]? = some (f.listSlot l) := by
  rw [listSlot, Array.getElem?_eq_getElem hl]
  rfl

/-- It is enough to know of the slots that are there, because the next ones correspond. -/
theorem embeds_of_stored
    (helement : ∀ e, f.HasElement e →
      g.HasElement (r.element e) ∧ g.elementSlot (r.element e) = r.elementSlot (f.elementSlot e))
    (hlist : ∀ l, f.HasList l →
      g.HasList (r.list l) ∧ g.listSlot (r.list l) = r.listSlot (f.listSlot l))
    (hroot : g.root = r.list f.root)
    (hnextElement : ∀ k, r.element ⟨f.elementSlots.size + k⟩ = ⟨g.elementSlots.size + k⟩)
    (hnextList : ∀ k, r.list ⟨f.listSlots.size + k⟩ = ⟨g.listSlots.size + k⟩) :
    r.Embeds f g where
  elementSlot e := by
    by_cases he : f.HasElement e
    · obtain ⟨hhas, hslot⟩ := helement e he
      rw [getElem?_of_hasElement he, getElem?_of_hasElement hhas, hslot, Option.map_some]
    · obtain ⟨k, hk⟩ := Nat.exists_eq_add_of_le (Nat.le_of_not_lt he)
      have hnext : r.element e = ⟨g.elementSlots.size + k⟩ :=
        (congrArg r.element (congrArg ElementId.mk hk)).trans (hnextElement k)
      rw [hnext, Array.getElem?_eq_none (Nat.le_of_not_lt he),
        Array.getElem?_eq_none (Nat.le_add_right _ _), Option.map_none]
  listSlot l := by
    by_cases hl : f.HasList l
    · obtain ⟨hhas, hslot⟩ := hlist l hl
      rw [getElem?_of_hasList hl, getElem?_of_hasList hhas, hslot, Option.map_some]
    · obtain ⟨k, hk⟩ := Nat.exists_eq_add_of_le (Nat.le_of_not_lt hl)
      have hnext : r.list l = ⟨g.listSlots.size + k⟩ :=
        (congrArg r.list (congrArg ListId.mk hk)).trans (hnextList k)
      rw [hnext, Array.getElem?_eq_none (Nat.le_of_not_lt hl),
        Array.getElem?_eq_none (Nat.le_add_right _ _), Option.map_none]
  root := hroot
  nextElement := hnextElement
  nextList := hnextList

namespace Renamed

variable (h : f.Renamed g ρ σ)

include h

/-- The new handles stand for the old ones, and those that are not given out yet follow in step. -/
theorem exists_handles (hlist : ∀ {l l'}, ρ l = some l' → f.HasList l)
    (helement : ∀ {e e'}, σ e = some e' → f.HasElement e ∧ g.HasElement e') :
    ∃ r : Handles, (∀ {l l'}, ρ l = some l' → r.list l' = l) ∧
      (∀ {e e'}, σ e = some e' → r.element e' = e) ∧
      (∀ k, r.element ⟨g.elementSlots.size + k⟩ = ⟨f.elementSlots.size + k⟩) ∧
      ∀ k, r.list ⟨g.listSlots.size + k⟩ = ⟨f.listSlots.size + k⟩ := by
  obtain ⟨k, hk, hkρ, hknext⟩ : ∃ k : Nat → Nat, (∀ {i i'}, k i = k i' → i = i') ∧
      (∀ {j i}, ρ ⟨j⟩ = some ⟨i⟩ → k i = j) ∧
      ∀ i, k (g.listSlots.size + i) = f.listSlots.size + i := by
    refine exists_carriedOn (fun i hi => ?_) (fun hl => h.hasList hl)
      (fun hl hm => congrArg ListId.index (h.list_inj hl hm))
      fun hl hm => congrArg ListId.index (Option.some.inj (hl.symm.trans hm))
    have hi : g.HasList ⟨i⟩ := hi
    obtain ⟨l, hl⟩ := h.list_source hi
    exact ⟨l.index, hlist hl, hl⟩
  obtain ⟨j, hj, hjσ, hjnext⟩ : ∃ j : Nat → Nat, (∀ {i i'}, j i = j i' → i = i') ∧
      (∀ {i i'}, σ ⟨i⟩ = some ⟨i'⟩ → j i' = i) ∧
      ∀ i, j (g.elementSlots.size + i) = f.elementSlots.size + i := by
    refine exists_carriedOn (fun i hi => ?_) (fun he => (helement he).2)
      (fun he hd => congrArg ElementId.index (h.element_inj he hd))
      fun he hd => congrArg ElementId.index (Option.some.inj (he.symm.trans hd))
    have hi : g.HasElement ⟨i⟩ := hi
    obtain ⟨e, he⟩ := h.element_source hi
    exact ⟨e.index, (helement he).1, he⟩
  exact ⟨{
    list := fun l => ⟨k l.index⟩
    element := fun e => ⟨j e.index⟩
    list_inj := fun hlm => congrArg ListId.mk (hk (congrArg ListId.index hlm))
    element_inj := fun hed => congrArg ElementId.mk (hj (congrArg ElementId.index hed)) },
    fun hl => congrArg ListId.mk (hkρ hl), fun he => congrArg ElementId.mk (hjσ he),
    fun i => congrArg ElementId.mk (hjnext i), fun i => congrArg ListId.mk (hknext i)⟩

theorem elementSlot (hlist : ∀ {l l'}, ρ l = some l' → r.list l' = l) (he : σ e = some e') :
    f.elementSlot e = r.elementSlot (g.elementSlot e') := by
  have hparent : (g.parent e').map r.list = f.parent e := map_of_map_eq hlist (h.parent he)
  have helement : (g.element e').rename r.list = f.element e :=
    Element.rename_of_renameLists? hlist (h.element he)
  have hposition : g.position e' = f.position e := h.position he
  rw [Formula.parent, Formula.parent] at hparent
  rw [Formula.element, Formula.element] at helement
  rw [Formula.position, Formula.position] at hposition
  rw [Handles.elementSlot, hparent, helement, hposition]

theorem listSlot (helement : ∀ {e e'}, σ e = some e' → r.element e' = e) (hl : ρ l = some l') :
    f.listSlot l = r.listSlot (g.listSlot l') := by
  have howner : (g.owner l').map r.element = f.owner l := map_of_map_eq helement (h.owner hl)
  have helements : (g.elements l').map r.element = f.elements l :=
    map_of_map_eq_list helement (h.elements hl)
  rw [Formula.owner, Formula.owner] at howner
  rw [Formula.elements, Formula.elements] at helements
  rw [Handles.listSlot, howner, helements]

/-- What has new handles in a second formula is embedded the other way round. -/
theorem exists_embeds (hlist : ∀ {l l'}, ρ l = some l' → f.HasList l)
    (helement : ∀ {e e'}, σ e = some e' → f.HasElement e ∧ g.HasElement e') :
    ∃ r : Handles, r.Embeds g f ∧ ∀ {l l'}, ρ l = some l' → r.list l' = l := by
  obtain ⟨r, hr, hr', hnextElement, hnextList⟩ := h.exists_handles hlist helement
  refine ⟨r, embeds_of_stored (fun e' he' => ?_) (fun l' hl' => ?_) (hr h.root).symm hnextElement
    hnextList, hr⟩
  · obtain ⟨e, he⟩ := h.element_source he'
    rw [hr' he]
    exact ⟨(helement he).1, h.elementSlot hr he⟩
  · obtain ⟨l, hl⟩ := h.list_source hl'
    rw [hr hl]
    exact ⟨hlist hl, h.listSlot hr' hl⟩

end Renamed

end Formula

/-! ## Compacting one document -/

namespace Survivors

variable {s : Survivors} {f g : Formula}

theorem size_of_formula? (h : s.formula? f = some g) :
    g.elementSlots.size = s.elements.length ∧ g.listSlots.size = s.lists.length := by
  simp only [formula?, Option.bind_eq_bind, Option.bind_eq_some_iff, Option.some.injEq] at h
  obtain ⟨elementSlots, helements, listSlots, hlists, root, -, rfl⟩ := h
  have helements := congrArg List.length (mapM_eq_some_iff.mp helements)
  have hlists := congrArg List.length (mapM_eq_some_iff.mp hlists)
  simp only [List.length_map] at helements hlists
  exact ⟨helements.symm, hlists.symm⟩

/-- The survivors of a tidy formula make up a formula that is embedded in it. -/
theorem exists_embeds (hf : f.Tidy) (hg : (of f).formula? f = some g)
    (hr : f.Renamed g (of f).list? (of f).element?) :
    ∃ r : Handles, r.Embeds g f ∧ ∀ {l l'}, (of f).list? l = some l' → r.list l' = l := by
  refine hr.exists_embeds (fun {l l'} hl => ?_) fun {e e'} he => ⟨?_, ?_⟩
  · have hmem := List.mem_of_getElem? (getElem?_of_list? hl)
    exact hf.hasList_of_reachable (hf.mem_allLists.mp hmem)
  · have hmem := List.mem_of_getElem? (getElem?_of_element? he)
    obtain ⟨l, hp, -⟩ := hf.mem_allElements.mp hmem
    exact Formula.hasElement_of_parent hp
  · have hlt := (List.getElem?_eq_some_iff.mp (getElem?_of_element? he)).1
    rwa [← (size_of_formula? hg).1] at hlt

/-- A caret of the formula comes back when the handles are exchanged back. -/
theorem caret_caret {r : Handles} {c : Caret} (hr : f.Renamed g s.list? s.element?)
    (hlist : ∀ {l l'}, s.list? l = some l' → r.list l' = l) (hc : c.Valid f) :
    r.caret (s.caret f c) = c := by
  have hplace : ∀ p, f.IsPlace p → ∃ p', s.place? p = some p' ∧ r.place p' = p := fun p hp => by
    obtain ⟨l', hl', -⟩ := hr.isPlace hp
    refine ⟨⟨l', p.pos⟩, by rw [place?, hl']; rfl, ?_⟩
    rw [Handles.place, hlist hl']
  obtain ⟨p', hp', hpp⟩ := hplace c.place hc.place
  unfold Survivors.caret
  rw [hp']
  cases ha : c.anchor with
  | none =>
    have hselecting : c.selecting = false := by
      rw [hc.selecting, ha]
      rfl
    simp only [Option.bind_none, Handles.caret, hpp, Option.isSome_none, Option.map_none,
      Bool.and_false]
    rw [← ha, ← hselecting]
  | some q =>
    obtain ⟨q', hq', hqq⟩ := hplace q (hc.anchor q ha)
    simp only [Option.bind_some, hq', Handles.caret, hpp, Option.map_some, hqq, Option.isSome_some,
      Bool.and_true]
    rw [← ha]

end Survivors

namespace Document

variable {doc : Document}

/-- A valid document is compacted and carries the result. What is left are the slots of the lists
and elements of the formula. -/
theorem Valid.exists_compact (hv : doc.Valid) :
    ∃ d n, doc.compact = .ok (d, n) ∧ (∃ r : Handles, r.Carries d doc) ∧
      n = doc.formula.slotCount - d.formula.slotCount ∧
      d.formula.slotCount = doc.formula.allElements.length + doc.formula.allLists.length := by
  have hf := hv.formula
  obtain ⟨g, hg, hr⟩ := (Survivors.closed_of hf).formula?_spec
  obtain ⟨r, hembeds, hlist⟩ := Survivors.exists_embeds hf hg hr
  obtain ⟨helements, hlists⟩ := Survivors.size_of_formula? hg
  refine ⟨{ doc with formula := g, caret := (Survivors.of doc.formula).caret doc.formula doc.caret },
    _, ?_, ⟨r, hembeds, ?_, rfl⟩, rfl, ?_⟩
  · rw [Document.compact]
    simp only [hg]
  · exact (Survivors.caret_caret hr hlist hv.caret).symm
  · exact congrArg₂ (· + ·) helements hlists

end Document

/-! ## Compacting two documents -/

namespace Survivors

/-- The same survivors under other handles. -/
def rename (s : Survivors) (r : Handles) : Survivors :=
  ⟨s.lists.map r.list, s.elements.map r.element⟩

variable {s : Survivors} {r : Handles} {f g : Formula} {l : ListId} {e : ElementId}

@[simp] theorem list?_rename : (s.rename r).list? (r.list l) = s.list? l := by
  rw [list?, rename, idxOf?_map r.list_inj, list?]

@[simp] theorem element?_rename : (s.rename r).element? (r.element e) = s.element? e := by
  rw [element?, rename, idxOf?_map r.element_inj, element?]

theorem elementSlot?_rename (slot : ElementSlot) :
    (s.rename r).elementSlot? (r.elementSlot slot) = s.elementSlot? slot := by
  unfold elementSlot?
  rw [Handles.elementSlot, Element.renameLists?_rename fun _ => list?_rename]
  cases slot.parent <;> simp

theorem listSlot?_rename (slot : ListSlot) :
    (s.rename r).listSlot? (r.listSlot slot) = s.listSlot? slot := by
  unfold listSlot?
  have helements : (slot.elements.map r.element).mapM (s.rename r).element? =
      slot.elements.mapM s.element? := by
    rw [List.mapM_map]
    exact congrArg (slot.elements.mapM ·) (funext fun _ => element?_rename)
  simp only [Handles.listSlot, helements]
  cases slot.owner <;> simp

theorem place?_rename (p : Place) : (s.rename r).place? (r.place p) = s.place? p := by
  unfold place?
  rw [Handles.place, list?_rename]

/-- Corresponding survivors of an embedded formula and of the one around it make up one formula. -/
theorem formula?_rename (h : r.Embeds f g) : (s.rename r).formula? g = s.formula? f := by
  have helements : (s.rename r).elements.mapM
      (fun e => (s.rename r).elementSlot? (g.elementSlot e)) =
      s.elements.mapM fun e => s.elementSlot? (f.elementSlot e) := by
    change (s.elements.map r.element).mapM _ = _
    rw [List.mapM_map]
    refine congrArg (s.elements.mapM ·) (funext fun e => ?_)
    rw [Function.comp, h.elementSlot_eq, elementSlot?_rename]
  have hlists : (s.rename r).lists.mapM (fun l => (s.rename r).listSlot? (g.listSlot l)) =
      s.lists.mapM fun l => s.listSlot? (f.listSlot l) := by
    change (s.lists.map r.list).mapM _ = _
    rw [List.mapM_map]
    refine congrArg (s.lists.mapM ·) (funext fun l => ?_)
    rw [Function.comp, h.listSlot_eq, listSlot?_rename]
  unfold formula?
  rw [h.root, list?_rename, helements, hlists]

theorem caret_rename (h : r.Embeds f g) (c : Caret) :
    (s.rename r).caret g (r.caret c) = s.caret f c := by
  have hanchor : (r.caret c).anchor.bind (s.rename r).place? = c.anchor.bind s.place? := by
    rw [Handles.caret]
    cases c.anchor with
    | none => rfl
    | some p => exact place?_rename p
  unfold Survivors.caret
  rw [hanchor, h.root, h.length, Handles.caret_place, place?_rename]
  rfl

end Survivors

namespace Handles

variable {r : Handles} {doc doc' : Document}

/-- Once they are compacted, a document and one that carries it are the same. -/
theorem Carries.compact (h : r.Carries doc doc') (hv : doc.Valid) :
    ∃ d n n', doc.compact = .ok (d, n) ∧ doc'.compact = .ok (d, n') := by
  have hsurvivors : Survivors.of doc'.formula = (Survivors.of doc.formula).rename r :=
    congrArg₂ Survivors.mk (h.formula.allLists hv.formula) (h.formula.allElements hv.formula)
  have hformula := Survivors.formula?_rename (s := Survivors.of doc.formula) h.formula
  have hcaret := Survivors.caret_rename (s := Survivors.of doc.formula) h.formula doc.caret
  obtain ⟨f, hf, -⟩ := (Survivors.closed_of hv.formula).formula?_spec
  unfold Document.compact
  simp only [hsurvivors, hformula, hf, h.caret, hcaret, h.convertsWords]
  exact ⟨_, _, _, rfl, rfl⟩

end Handles

end FormulaEditor
