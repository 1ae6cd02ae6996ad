import FormulaEditor.Proofs.Document.Wrapping

/-!
# Scripts that take the selection in

Scripts that stand beside the selection in the list of the caret are opened again, and the selection
goes into the half that is opened, behind or before what that holds. No element is gained or lost.
-/

namespace FormulaEditor

theorem Element.mem_lists_of_half? {x : Element} {superscript : Bool} {half : ListId}
    (h : x.half? superscript = some half) : half ∈ x.lists := by
  cases x <;> cases superscript <;> simp_all [half?, lists]

theorem Element.mem_lists_withHalf {x : Element} {superscript : Bool} {i half : ListId}
    (hx : x.kind.isScripts)
    (h : x.half? superscript = some half ∨ x.half? superscript = none) :
    i ∈ (x.withHalf superscript half).lists ↔ i ∈ x.lists ∨ i = half := by
  obtain ⟨exponent, subscript, acceptor, rfl⟩ : ∃ exponent subscript acceptor,
      x = .scripts exponent subscript acceptor := by
    cases x <;> simp_all [Element.kind, Kind.isScripts]
  cases superscript <;> simp only [half?, withHalf, lists, Bool.false_eq_true, ↓reduceIte] at h ⊢ <;>
    obtain rfl | rfl := h <;> simp only [Option.toList, List.mem_append, List.mem_cons,
      List.not_mem_nil, or_false] <;> tauto

namespace Formula

variable {f g : Formula} {e : ElementId} {l half : ListId} {s : Selection} {p : Place}
  {start stop : Nat} {superscript : Bool} {before run after : List ElementId}

/-- Scripts beside a run take it into a half: behind what that holds if they stand before the run,
and before it if they stand behind the run. The place is the one right behind the run. -/
inductive TakesBeside (f g : Formula) (s : Selection) (e : ElementId) (half : ListId) :
    Place → Prop
  | before {before after : List ElementId}
    (list : f.elements s.list = before ++ e :: (s.elements f ++ after))
    (start : s.start = before.length + 1) (left : g.elements s.list = before ++ e :: after)
    (taken : g.elements half = f.elements half ++ s.elements f) :
    TakesBeside f g s e half (g.endOf half)
  | behind {before after : List ElementId}
    (list : f.elements s.list = before ++ (s.elements f ++ e :: after))
    (start : s.start = before.length) (left : g.elements s.list = before ++ e :: after)
    (taken : g.elements half = s.elements f ++ f.elements half) :
    TakesBeside f g s e half ⟨half, (s.elements f).length⟩

/-- Scripts beside a run take it into one of their halves, which may be a new list. Otherwise all
elements and lists are what they were. -/
structure Joins (f g : Formula) (s : Selection) (superscript : Bool) (e : ElementId)
    (half : ListId) (p : Place) : Prop where
  tidy : g.Tidy
  root : g.root = f.root
  allElements : g.allElements.Perm f.allElements
  scripts : (f.kind e).isScripts
  source : (f.element e).half? superscript = some half ∨
    (f.element e).half? superscript = none ∧ ¬f.HasList half
  opened : g.element e = (f.element e).withHalf superscript half
  run : f.TakesBeside g s e half p
  elements : ∀ i ≠ s.list, i ≠ half → g.elements i = f.elements i
  element : ∀ x ≠ e, g.element x = f.element x

/-- A run moves from a list into a list of an element there, which may be new. -/
structure Moves (f g : Formula) (l : ListId) (e : ElementId) (half : ListId)
    (run : List ElementId) : Prop where
  root : g.root = f.root
  reachable : f.Reachable l
  stays : g.Reachable l
  mem : e ∈ f.elements l
  mem_after : e ∈ g.elements l
  listsOf : ∀ i, i ∈ g.listsOf e ↔ i ∈ f.listsOf e ∨ i = half
  opened : half ∈ f.listsOf e ∨ f.elements half = []
  list : ∀ x, x ∈ f.elements l ↔ x ∈ g.elements l ∨ x ∈ run
  taken : ∀ x, x ∈ g.elements half ↔ x ∈ f.elements half ∨ x ∈ run
  elements : ∀ i ≠ l, i ≠ half → g.elements i = f.elements i
  element : ∀ x ≠ e, g.element x = f.element x

namespace Moves

variable {k i : ListId} {x : ElementId} (h : f.Moves g l e half run)

include h

theorem reachable_half : g.Reachable half :=
  h.stays.inside h.mem_after ((h.listsOf half).mpr (.inr rfl))

/-- What was in a list is in that list or in the half. -/
theorem exists_after (hk : g.Reachable k) (hx : x ∈ f.elements k) :
    ∃ k', g.Reachable k' ∧ x ∈ g.elements k' := by
  by_cases hkl : k = l
  · subst hkl
    obtain hx | hx := (h.list x).mp hx
    · exact ⟨k, hk, hx⟩
    · exact ⟨half, h.reachable_half, (h.taken x).mpr (.inr hx)⟩
  · by_cases hkh : k = half
    · subst hkh
      exact ⟨k, hk, (h.taken x).mpr (.inl hx)⟩
    · exact ⟨k, hk, h.elements k hkl hkh ▸ hx⟩

/-- What is in a list was in that list or in the one that the run has left. -/
theorem exists_before (hk : f.Reachable k ∨ k = half) (hx : x ∈ g.elements k) :
    ∃ k', f.Reachable k' ∧ x ∈ f.elements k' := by
  by_cases hkh : k = half
  · subst hkh
    obtain hx | hx := (h.taken x).mp hx
    · have hmem : k ∈ f.listsOf e := h.opened.resolve_right fun hc => by simp [hc] at hx
      exact ⟨k, h.reachable.inside h.mem hmem, hx⟩
    · exact ⟨l, h.reachable, (h.list x).mpr (.inr hx)⟩
  · have hk := hk.resolve_right hkh
    by_cases hkl : k = l
    · subst hkl
      exact ⟨k, hk, (h.list x).mpr (.inl hx)⟩
    · exact ⟨k, hk, h.elements k hkl hkh ▸ hx⟩

theorem reachable_after (hi : f.Reachable i) : g.Reachable i := by
  induction hi using Reachable.induct with
  | root => exact h.root ▸ reachable_root
  | @inside k i x _ hx hi ih =>
    obtain ⟨k', hk', hx'⟩ := h.exists_after ih hx
    refine hk'.inside hx' ?_
    by_cases hxe : x = e
    · subst hxe
      exact (h.listsOf i).mpr (.inl hi)
    · rwa [Formula.listsOf, h.element x hxe]

theorem reachable_before (hi : g.Reachable i) : f.Reachable i ∨ i = half := by
  induction hi using Reachable.induct with
  | root => exact .inl (h.root ▸ reachable_root)
  | @inside k i x _ hx hi ih =>
    obtain ⟨k', hk', hx'⟩ := h.exists_before ih hx
    by_cases hxe : x = e
    · subst hxe
      exact ((h.listsOf i).mp hi).imp (hk'.inside hx') id
    · rw [Formula.listsOf, h.element x hxe] at hi
      exact .inl (hk'.inside hx' hi)

/-- There are the elements that there were. -/
theorem allElements_perm (hf : f.Sound []) (hg : g.Sound []) :
    g.allElements.Perm f.allElements := by
  refine (List.perm_ext_iff_of_nodup hg.nodup_allElements hf.nodup_allElements).mpr fun x => ?_
  rw [hg.inventory.elements, hf.inventory.elements]
  constructor
  · rintro ⟨k, hk, hx⟩
    exact h.exists_before (h.reachable_before hk) hx
  · rintro ⟨k, hk, hx⟩
    exact h.exists_after (h.reachable_after hk) hx

end Moves

/-- The run goes from the list into the half, to a position there. -/
theorem Opened.move_run (hf : f.Tidy) (ho : f.Opened e g half) (hl : f.Reachable l)
    (he : e ∈ f.elements l) (hstart : start ≤ stop) (pos : Nat) :
    ∃ g₁ g₂, g₁ = (g.replaceRange l start stop []).1 ∧
      g₂ = (g₁.replaceRange half pos pos (f.range l start stop)).1 ∧
      g₁.Tidy ∧ g₁.Ready (f.range l start stop) ∧ g₁.Reachable l ∧
      g₁.elements l = f.replaced l start stop [] ∧ g₁.elements half = f.elements half ∧
      (∀ x, g₁.element x = g.element x) ∧ g₂.Tidy ∧ g₂.root = f.root ∧ g₂.Reachable l ∧
      g₂.elements l = f.replaced l start stop [] ∧
      g₂.elements half =
        (f.elements half).take pos ++ f.range l start stop ++ (f.elements half).drop pos ∧
      (∀ i ≠ l, i ≠ half → g₂.elements i = f.elements i) ∧ ∀ x, g₂.element x = g.element x := by
  have hg := ho.tidy hf
  have hreach := ho.keeps.reachable hl
  have hlist := hg.hasList_of_reachable hreach
  have hhalf := hg.allocated e half ho.mem_half
  have hne : l ≠ half := fun hc => by
    have hbelow := (Below.here l).inside ((ho.elements l).symm ▸ he) ho.mem_half
    exact Nat.one_ne_zero (hg.toSound.eq_zero_of_below hreach (hc ▸ hbelow))
  have hrun := hg.ready_range hlist hstart .nil
  have hg₁ := hg.replaceRange hlist hstart .nil
  have hreach₁ : (g.replaceRange l start stop []).1.Reachable l := hg.reachable_replaceRange hreach
  have hrange : g.range l start stop = f.range l start stop := by
    rw [range, ho.elements, range]
  have hreplaced : g.replaced l start stop [] = f.replaced l start stop [] := by
    rw [replaced, ho.elements, replaced]
  rw [hrange] at hrun
  obtain ⟨g₁, hg₁eq⟩ : ∃ g', g' = (g.replaceRange l start stop []).1 := ⟨_, rfl⟩
  have hlist₁ : g₁.elements l = f.replaced l start stop [] := by
    rw [hg₁eq, elements_replaceRange hlist, if_pos rfl, hreplaced]
  have hother₁ : ∀ i ≠ l, g₁.elements i = f.elements i := fun i hi => by
    rw [hg₁eq, elements_replaceRange hlist, if_neg hi.symm, ho.elements]
  rw [← hg₁eq] at hrun hg₁ hreach₁
  have hhalf₁ : g₁.HasList half := by simpa [hg₁eq, HasList] using hhalf
  refine ⟨g₁, _, hg₁eq, rfl, hg₁, hrun, hreach₁, hlist₁, hother₁ half hne.symm,
    fun x => hg₁eq ▸ element_replaceRange, hg₁.replaceRange hhalf₁ (Nat.le_refl pos) hrun, ?_,
    (keeps_insert hhalf₁).reachable hreach₁, ?_, ?_, fun i hi hih => ?_, fun x => ?_⟩
  · rw [root_replaceRange, hg₁eq, root_replaceRange, ho.root]
  · rw [elements_replaceRange hhalf₁, if_neg hne.symm, hlist₁]
  · rw [elements_replaceRange hhalf₁, if_pos rfl, replaced, hother₁ half hne.symm]
  · rw [elements_replaceRange hhalf₁, if_neg hih.symm, hother₁ i hi]
  · rw [element_replaceRange, hg₁eq, element_replaceRange]

/-- An element stands right before a run or right behind it, and the two of them split the list. -/
inductive Beside (f : Formula) (s : Selection) (e : ElementId) (before after : List ElementId) :
    Direction → Prop
  | before (list : f.elements s.list = before ++ e :: (s.elements f ++ after))
    (start : s.start = before.length + 1) : Beside f s e before after .right
  | behind (list : f.elements s.list = before ++ (s.elements f ++ e :: after))
    (start : s.start = before.length) : Beside f s e before after .left

theorem Beside.mem_iff {d : Direction} (h : f.Beside s e before after d) (x : ElementId) :
    x ∈ f.elements s.list ↔ x ∈ before ++ e :: after ∨ x ∈ s.elements f := by
  cases h with
  | before list | behind list =>
    rw [list]
    simp only [List.mem_append, List.mem_cons]
    tauto

/-- Without the run the element and its other neighbours are left. -/
theorem exists_beside_before {i : Nat} (hle : s.start ≤ s.stop) (hstart : s.start = i + 1)
    (he : (f.elements s.list)[i]? = some e) : ∃ before after,
      f.Beside s e before after .right ∧
        f.replaced s.list s.start s.stop [] = before ++ e :: after := by
  have htake : (f.elements s.list).take s.start = (f.elements s.list).take i ++ [e] := by
    rw [hstart, List.take_add_one, he, Option.toList_some]
  refine ⟨(f.elements s.list).take i, (f.elements s.list).drop s.stop, .before ?_ ?_, ?_⟩
  · conv_lhs => rw [elements_eq_range hle, htake]
    simp [Selection.elements]
  · rw [List.length_take]
    have := (List.getElem?_eq_some_iff.mp he).1
    omega
  · rw [replaced, htake]
    simp

theorem exists_beside_behind (hle : s.start ≤ s.stop)
    (he : (f.elements s.list)[s.stop]? = some e) : ∃ before after,
      f.Beside s e before after .left ∧
        f.replaced s.list s.start s.stop [] = before ++ e :: after := by
  have hdrop : (f.elements s.list).drop s.stop = e :: (f.elements s.list).drop (s.stop + 1) := by
    rw [List.drop_eq_getElem?_toList_append, he]
    rfl
  refine ⟨(f.elements s.list).take s.start, (f.elements s.list).drop (s.stop + 1),
    .behind ?_ ?_, ?_⟩
  · conv_lhs => rw [elements_eq_range hle, hdrop, List.append_assoc]
    rfl
  · rw [List.length_take]
    have := (List.getElem?_eq_some_iff.mp he).1
    omega
  · rw [replaced, hdrop, List.append_nil]

end Formula

namespace Document

variable {doc : Document} {e : ElementId} {s : Selection} {d : Direction}

/-- Scripts that are opened again stand right before what is selected or right behind it. -/
theorem Valid.reusable_beside (h : doc.Valid)
    (hsel : doc.caret.selected? doc.formula = .ok (some s))
    (hreuse : doc.reusableScripts? (some s) = some (e, d)) :
    s.list = doc.caret.place.list ∧ (doc.formula.kind e).isScripts ∧ ∃ before after,
      doc.formula.Beside s e before after d ∧
        doc.formula.replaced s.list s.start s.stop [] = before ++ e :: after := by
  obtain ⟨i, hi, hk, hout, q, hq, hd⟩ := reusableScripts?_spec hreuse
  obtain ⟨hlist, hnot⟩ := hout s rfl
  obtain ⟨anchor, ha, hhull⟩ := h.caret.isHull h.formula hsel
  have hf := h.formula.toSound
  have hplace := h.caret.place.reachable
  have hend : q.pos = s.start ∨ q.pos = s.stop := by
    obtain rfl | ⟨hq, hql⟩ := hq
    · exact hhull.pos_eq hf hplace hlist.symm
    · obtain rfl : anchor = q := Option.some.inj (ha.symm.trans hq)
      exact hhull.symm.pos_eq hf (hql ▸ hplace) (hql.trans hlist.symm)
  have hle := hhull.start_le
  rw [← hlist] at hi
  refine ⟨hlist, hk, ?_⟩
  obtain ⟨rfl, hpos⟩ | ⟨rfl, hpos⟩ := hd
  · have hstart : s.start = i + 1 := by omega
    exact Formula.exists_beside_before hle hstart hi
  · obtain rfl : i = s.stop := by omega
    exact Formula.exists_beside_behind hle hi

/-- Scripts that are opened take the selection into the half, to where their side asks for it. -/
theorem Valid.giveSelection_opened (h : doc.Valid) (hs : doc.caret.selecting = true)
    (hsel : doc.caret.selected? doc.formula = .ok (some s)) {g : Formula} {half : ListId}
    (ho : doc.formula.Opened e g half) (he : e ∈ doc.formula.elements s.list)
    (hout : e ∉ s.elements doc.formula) (d : Direction) :
    ∃ g', Document.giveSelection { doc with formula := g } e d =
        .ok ({ doc with formula := g', caret := .ofPlace ⟨s.list, s.start⟩ },
          some (s.elements doc.formula).length) ∧
      g'.Tidy ∧ g'.root = doc.formula.root ∧ g'.Reachable s.list ∧
      g'.elements s.list = doc.formula.replaced s.list s.start s.stop [] ∧
      g'.elements half = (if d = .left then s.elements doc.formula ++ doc.formula.elements half
        else doc.formula.elements half ++ s.elements doc.formula) ∧
      (∀ i ≠ s.list, i ≠ half → g'.elements i = doc.formula.elements i) ∧
      ∀ x, g'.element x = g.element x := by
  have hf := h.formula
  have hvalid := h.opened ho
  have hsel' : doc.caret.selected? g = .ok (some s) := by
    rw [h.caret.selected?_congr hf ho.toSamePlaces, hsel]
  obtain ⟨s', hs', hv, hdelete⟩ := hvalid.delete_selection hs d
  obtain rfl : s = s' := Option.some.inj (Except.ok.inj (hsel'.symm.trans hs'))
  have hr : doc.formula.Reachable s.list := by
    obtain ⟨anchor, -, hhull⟩ := h.caret.isHull hf hsel
    exact (hhull.valid hf.toSound h.caret.place.reachable).reachable
  obtain ⟨pos, hpos⟩ : ∃ pos, pos = if d = .left then 0 else doc.formula.length half := ⟨_, rfl⟩
  obtain ⟨g₁, g₂, hg₁, hg₂, htidy₁, hrun, hreach₁, hlist₁, hhalf₁, helement₁, htidy, hroot, hreach,
    hlist, hhalf, hothers, helement⟩ := ho.move_run hf hr he hv.start_le pos
  have hrange : g.range s.list s.start s.stop = s.elements doc.formula := by
    rw [Formula.range, ho.elements]
    rfl
  change g₁.Ready (s.elements doc.formula) at hrun
  change g₂ = (g₁.replaceRange half pos pos (s.elements doc.formula)).1 at hg₂
  rw [hrange] at hdelete
  have hstays : e ∈ g₁.elements s.list := by
    rw [hlist₁]
    exact (Formula.mem_range_or hv.start_le he []).resolve_left hout
  obtain ⟨exponent, subscript, hscripts⟩ := ho.acceptor
  have hlength : g₁.length half = doc.formula.length half := congrArg List.length hhalf₁
  have hplace : g₁.receivingPlace? e d = some ⟨half, pos⟩ := by
    rw [Formula.receivingPlace?_of_acceptor ((helement₁ e).trans hscripts), hpos]
    split
    · rfl
    · rw [Formula.endOf, hlength]
  have hle : pos ≤ g₁.length half := by
    rw [hpos, hlength]
    split
    · exact Nat.zero_le _
    · exact Nat.le_refl _
  have haccept : Document.acceptSelection ⟨g₁, .ofPlace ⟨s.list, s.start⟩, doc.convertsWords⟩ e
      (s.elements doc.formula) d = _ :=
    acceptSelection_eq htidy₁ hrun hout (fun l' hl' => by
      rwa [← Option.some.inj ((htidy₁.mem_elements.mp hstays).symm.trans hl')]) hplace hle
  dsimp only at haccept
  rw [← hg₂] at haccept
  refine ⟨g₂, ?_, htidy, hroot, hreach, hlist, ?_, hothers, helement⟩
  · unfold Document.giveSelection
    simp only [hs, ↓reduceIte, hdelete, bind, Except.bind, ← hg₁, haccept]
  · rw [hhalf, hpos]
    split
    · rfl
    · rw [Formula.length, List.take_length, List.drop_length, List.append_nil]
      rfl

/-- Scripts beside the selection are opened and take it in, and the caret goes right behind it. -/
theorem Valid.insertScript_joins (h : doc.Valid) (hs : doc.caret.selecting = true)
    (hsel : doc.caret.selected? doc.formula = .ok (some s))
    (hreuse : doc.reusableScripts? (some s) = some (e, d)) (superscript : Bool) :
    ∃ g half p, doc.insertScript superscript =
        .ok { doc with formula := g, caret := .ofPlace p } ∧
      s.list = doc.caret.place.list ∧ doc.formula.Joins g s superscript e half p := by
  have hf := h.formula
  obtain ⟨hlist, hscripts, before, after, hbeside, hreplaced⟩ := h.reusable_beside hsel hreuse
  obtain ⟨anchor, -, hhull⟩ := h.caret.isHull hf hsel
  have hv := hhull.valid hf.toSound h.caret.place.reachable
  have hout : e ∉ s.elements doc.formula := fun hc =>
    hf.range_not_mem_replaced hv.start_le .nil hc (by simp [hreplaced])
  have he : e ∈ doc.formula.elements s.list := (hbeside.mem_iff e).mpr (.inl (by simp))
  have hhas := hf.hasElement he
  -- Opening leaves all of this in place, and handing the run over is what changes it.
  obtain ⟨exponent, subscript, acceptor, hx⟩ := isScripts_iff.mp hscripts
  obtain ⟨g, half, hopen, ho⟩ := Formula.openScript_spec hf hhas
    (hf.whole e s.list (hf.mem_elements.mp he)) hx superscript
  obtain ⟨helement, hsource⟩ := Formula.element_openScript hhas hopen
  obtain ⟨g', hgive, htidy, hroot, hreach, hl, hhalf, hothers, helement'⟩ :=
    h.giveSelection_opened hs hsel ho he hout d
  rw [hreplaced] at hl
  have hself := (helement' e).trans helement
  have helements : ∀ x ≠ e, g'.element x = doc.formula.element x := fun x hx =>
    (helement' x).trans (ho.element x hx)
  have hmoves : doc.formula.Moves g' s.list e half (s.elements doc.formula) :=
    { root := hroot
      reachable := hv.reachable
      stays := hreach
      mem := he
      mem_after := hl ▸ by simp
      listsOf := fun i => by
        rw [Formula.listsOf, hself]
        exact Element.mem_lists_withHalf hscripts (hsource.imp_right And.left)
      opened := hsource.imp Element.mem_lists_of_half? fun hfresh =>
        List.eq_nil_iff_forall_not_mem.mpr fun x hx => hfresh.2 (Formula.hasList_of_mem hx)
      list := hl ▸ hbeside.mem_iff
      taken := fun x => by
        rw [hhalf]
        split
        · rw [List.mem_append, or_comm]
        · exact List.mem_append
      elements := hothers
      element := helements }
  have hperm := hmoves.allElements_perm hf.toSound htidy.toSound
  have htaken : doc.formula.TakesBeside g' s e half
      (if d = .right then g'.endOf half else ⟨half, (s.elements doc.formula).length⟩) := by
    cases hbeside with
    | before list start => exact .before list start hl hhalf
    | behind list start => exact .behind list start hl hhalf
  refine ⟨g', half, _, ?_, hlist,
    ⟨htidy, hroot, hperm, hscripts, hsource, hself, htaken, hothers, helements⟩⟩
  unfold Document.insertScript
  simp only [hsel, bind, Except.bind, hreuse, hopen, hgive, Option.getD_some]
  split
  · rfl
  · rfl

end Document

end FormulaEditor
