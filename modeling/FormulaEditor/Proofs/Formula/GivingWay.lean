import FormulaEditor.Proofs.Formula.Leaves

/-!
# An element gives way

A deletion changes one list of the formula: an element in it gives way to others, which come out of
lists that the element loses. Whatever lies elsewhere keeps its list and its place in the order.
-/

namespace FormulaEditor.Formula

variable {f g : Formula} {e x : ElementId} {new : List ElementId} {gone : List ListId}
  {i k l : ListId} {n : Nat} {pending pending' : List ElementId}

/-- In a list of the formula `new` stands in the place of `e`. The lists in `gone` apart, the other
lists hold what they held, and `e` apart, the elements are what they were. -/
structure GivesWay (f g : Formula) (l : ListId) (e : ElementId) (new : List ElementId)
    (gone : List ListId) : Prop where
  root : g.root = f.root
  reachable : f.Reachable l
  list : ∃ before after, f.elements l = before ++ e :: after ∧ g.elements l = before ++ (new ++ after)
  elements : ∀ i ≠ l, i ∉ gone → g.elements i = f.elements i
  element : ∀ x ≠ e, g.element x = f.element x

/-- What comes in has stood in the lists that go, and the element either goes with all its lists or
keeps those that stay. -/
structure Accounts (f g : Formula) (e : ElementId) (new : List ElementId) (gone : List ListId) :
    Prop where
  mem_listsOf : ∀ i ∈ gone, i ∈ f.listsOf e
  mem_new : ∀ x ≠ e, x ∈ new ↔ ∃ i ∈ gone, x ∈ f.elements i
  stays : e ∈ new → ∀ i, i ∈ g.listsOf e ↔ i ∈ f.listsOf e ∧ i ∉ gone
  goes : e ∉ new → ∀ i ∈ f.listsOf e, i ∈ gone

namespace GivesWay

theorem mem (h : f.GivesWay g l e new gone) : e ∈ f.elements l := by
  obtain ⟨before, after, hel, -⟩ := h.list
  simp [hel]

theorem listsOf_of_ne (h : f.GivesWay g l e new gone) (hne : x ≠ e) : g.listsOf x = f.listsOf x := by
  rw [listsOf, h.element x hne, listsOf]

/-- Besides what comes in, the list holds what it held, the element apart. -/
theorem mem_list_iff (hf : f.Sound pending) (h : f.GivesWay g l e new gone) :
    x ∈ g.elements l ↔ x ∈ new ∨ x ∈ f.elements l ∧ x ≠ e := by
  obtain ⟨before, after, hel, hel'⟩ := h.list
  have hnd := hf.nodup_elements l
  rw [hel, List.nodup_middle, List.nodup_cons] at hnd
  have hout : x ∈ before ++ after → x ≠ e := fun hx => ne_of_mem_of_not_mem hx hnd.1
  rw [hel, hel']
  simp only [List.mem_append, List.mem_cons] at hout ⊢
  tauto

section Accounting

variable (hf : f.Sound pending) (h : f.GivesWay g l e new gone) (ha : f.Accounts g e new gone)

include hf h ha

theorem list_not_mem : l ∉ gone := fun hc =>
  hf.not_mem_listsOf h.reachable h.mem (ha.mem_listsOf l hc)

/-- The lists of other elements do not go. -/
theorem not_mem_of_ne (hx : x ∈ f.elements k) (hne : x ≠ e) (hi : i ∈ f.listsOf x) : i ∉ gone :=
  fun hc => hne (hf.eq_of_mem_listsOf hx hi h.mem (ha.mem_listsOf i hc))

/-- In the lists that stay there is nothing that was not there before. -/
theorem mem_before (hk : f.Reachable k) (hgone : k ∉ gone) (hx : x ∈ g.elements k) :
    (∃ k', f.Reachable k' ∧ x ∈ f.elements k') ∧ (x = e → e ∈ new) := by
  by_cases hkl : k = l
  · subst hkl
    obtain hnew | ⟨hx, hne⟩ := (h.mem_list_iff hf).mp hx
    · refine ⟨?_, fun hxe => hxe ▸ hnew⟩
      by_cases hxe : x = e
      · exact ⟨k, hk, hxe ▸ h.mem⟩
      · obtain ⟨k', hk', hx'⟩ := (ha.mem_new x hxe).mp hnew
        exact ⟨k', hk.inside h.mem (ha.mem_listsOf k' hk'), hx'⟩
    · exact ⟨⟨k, hk, hx⟩, fun hc => absurd hc hne⟩
  · rw [h.elements k hkl hgone] at hx
    exact ⟨⟨k, hk, hx⟩, fun hc => absurd (hf.eq_of_mem hx (hc ▸ h.mem)) hkl⟩

/-- What was there is there still: in its list, or in place of the element. -/
theorem mem_after (hx : x ∈ f.elements k) (hnew : x = e → e ∈ new) :
    x ∈ g.elements l ∨ k ∉ gone ∧ x ∈ g.elements k := by
  by_cases hxe : x = e
  · exact .inl ((h.mem_list_iff hf).mpr (.inl (hxe ▸ hnew hxe)))
  · by_cases hgone : k ∈ gone
    · exact .inl ((h.mem_list_iff hf).mpr (.inl ((ha.mem_new x hxe).mpr ⟨k, hgone, hx⟩)))
    · by_cases hkl : k = l
      · exact .inl ((h.mem_list_iff hf).mpr (.inr ⟨hkl ▸ hx, hxe⟩))
      · exact .inr ⟨hgone, (h.elements k hkl hgone).symm ▸ hx⟩

/-- The lists of an element that is still there are those that stay. -/
theorem mem_listsOf_iff (hx : x ∈ f.elements k) (hnew : x = e → e ∈ new) :
    i ∈ g.listsOf x ↔ i ∈ f.listsOf x ∧ i ∉ gone := by
  by_cases hxe : x = e
  · exact hxe ▸ ha.stays (hnew hxe) i
  · rw [h.listsOf_of_ne hxe]
    exact ⟨fun hi => ⟨hi, h.not_mem_of_ne hf ha hx hxe hi⟩, And.left⟩

/-- The list of the element stays in the formula. -/
theorem reachable_list : g.Reachable l := by
  refine hf.reachable_of_agree h.reachable h.root fun i _ hnot x hx k hk => ?_
  have hil : i ≠ l := by
    rintro rfl
    exact hnot 0 (.here i)
  have hig : i ∉ gone := fun hc => hnot 1 ((Below.here l).inside h.mem (ha.mem_listsOf i hc))
  have hxe : x ≠ e := by
    rintro rfl
    exact hil (hf.eq_of_mem hx h.mem)
  exact ⟨(h.elements i hil hig).symm ▸ hx, (h.listsOf_of_ne hxe).symm ▸ hk⟩

/-- Just the lists that go are no lists of the formula any more. -/
theorem reachable_iff : g.Reachable i ↔ f.Reachable i ∧ i ∉ gone := by
  constructor
  · intro hi
    induction hi using Reachable.induct with
    | root =>
      rw [h.root]
      exact ⟨reachable_root, fun hc => hf.ne_root h.mem (ha.mem_listsOf _ hc) rfl⟩
    | inside _ hx hi ih =>
      obtain ⟨⟨k', hk', hx'⟩, hnew⟩ := h.mem_before hf ha ih.1 ih.2 hx
      obtain ⟨hi, hig⟩ := (h.mem_listsOf_iff hf ha hx' hnew).mp hi
      exact ⟨hk'.inside hx' hi, hig⟩
  · rintro ⟨hi, hgone⟩
    have hl := h.reachable_list hf ha
    induction hi using Reachable.induct with
    | root =>
      rw [← h.root]
      exact reachable_root
    | @inside k i x _ hx hi ih =>
      have hnew : x = e → e ∈ new := by
        rintro rfl
        by_contra hc
        exact hgone (ha.goes hc i hi)
      have hi' := (h.mem_listsOf_iff hf ha hx hnew).mpr ⟨hi, hgone⟩
      obtain hx' | ⟨hkg, hx'⟩ := h.mem_after hf ha hx hnew
      · exact hl.inside hx' hi'
      · exact (ih hkg).inside hx' hi'

/-- Just the element may be no element of the formula any more. -/
theorem mem_iff : (∃ k, g.Reachable k ∧ x ∈ g.elements k) ↔
    (∃ k, f.Reachable k ∧ x ∈ f.elements k) ∧ (x = e → e ∈ new) := by
  constructor
  · rintro ⟨k, hk, hx⟩
    obtain ⟨hk, hgone⟩ := (h.reachable_iff hf ha).mp hk
    exact h.mem_before hf ha hk hgone hx
  · rintro ⟨⟨k, hk, hx⟩, hnew⟩
    obtain hx' | ⟨hkg, hx'⟩ := h.mem_after hf ha hx hnew
    · exact ⟨l, h.reachable_list hf ha, hx'⟩
    · exact ⟨k, (h.reachable_iff hf ha).mpr ⟨hk, hkg⟩, hx'⟩

/-- An element of the formula vanishes just if it is the one that gives way and does not come back. -/
theorem vanishes_iff : ((∃ k, f.Reachable k ∧ x ∈ f.elements k) ∧
    ¬∃ k, g.Reachable k ∧ x ∈ g.elements k) ↔ x = e ∧ e ∉ new := by
  rw [h.mem_iff hf ha]
  constructor
  · rintro ⟨hx, hnot⟩
    exact Classical.not_imp.mp fun himp => hnot ⟨hx, himp⟩
  · rintro ⟨rfl, hnew⟩
    exact ⟨⟨l, h.reachable, h.mem⟩, fun hc => hnew (hc.2 rfl)⟩

/-- An element that is still there loses just the lists that go, if it is the one that gives way. -/
theorem loses_iff : ((∃ k, g.Reachable k ∧ x ∈ g.elements k) ∧ i ∈ f.listsOf x ∧ i ∉ g.listsOf x) ↔
    x = e ∧ e ∈ new ∧ i ∈ gone := by
  rw [h.mem_iff hf ha]
  constructor
  · rintro ⟨⟨⟨k, hk, hx⟩, hnew⟩, hi, hig⟩
    rw [h.mem_listsOf_iff hf ha hx hnew] at hig
    have hgone : i ∈ gone := by tauto
    have hxe : x = e := by
      by_contra hne
      exact h.not_mem_of_ne hf ha hx hne hi hgone
    exact ⟨hxe, hnew hxe, hgone⟩
  · rintro ⟨rfl, hnew, hi⟩
    exact ⟨⟨⟨l, h.reachable, h.mem⟩, fun _ => hnew⟩, ha.mem_listsOf i hi,
      fun hc => ((ha.stays hnew i).mp hc).2 hi⟩

variable (hg : g.Sound pending')

include hg

theorem mem_allElements_iff : x ∈ g.allElements ↔ x ∈ f.allElements ∧ (x = e → e ∈ new) := by
  rw [hg.inventory.elements, hf.inventory.elements, h.mem_iff hf ha]

theorem mem_allLists_iff : i ∈ g.allLists ↔ i ∈ f.allLists ∧ i ∉ gone := by
  rw [hg.inventory.lists, hf.inventory.lists, h.reachable_iff hf ha]

/-- An element that goes, or a list that goes, makes the formula smaller. -/
theorem size_lt (hless : e ∉ new ∨ ∃ i, i ∈ gone) :
    g.allElements.length + g.allLists.length < f.allElements.length + f.allLists.length := by
  have hes : g.allElements ⊆ f.allElements := fun x hx =>
    ((h.mem_allElements_iff hf ha hg).mp hx).1
  have hls : g.allLists ⊆ f.allLists := fun i hi => ((h.mem_allLists_iff hf ha hg).mp hi).1
  have hes' := (List.subperm_of_subset hg.nodup_allElements hes).length_le
  have hls' := (List.subperm_of_subset hg.nodup_allLists hls).length_le
  obtain hnew | ⟨i, hi⟩ := hless
  · have he : e ∈ f.allElements := hf.mem_allElements.mpr
      ⟨l, hf.mem_elements.mp h.mem, h.reachable⟩
    have hsub : (e :: g.allElements).Subperm f.allElements := by
      refine List.subperm_of_subset (List.nodup_cons.mpr ⟨fun hc => ?_, hg.nodup_allElements⟩)
        (List.cons_subset.mpr ⟨he, hes⟩)
      exact hnew (((h.mem_allElements_iff hf ha hg).mp hc).2 rfl)
    have := hsub.length_le
    rw [List.length_cons] at this
    omega
  · have hil : i ∈ f.allLists := hf.mem_allLists.mpr
      (h.reachable.inside h.mem (ha.mem_listsOf i hi))
    have hsub : (i :: g.allLists).Subperm f.allLists := by
      refine List.subperm_of_subset (List.nodup_cons.mpr ⟨fun hc => ?_, hg.nodup_allLists⟩)
        (List.cons_subset.mpr ⟨hil, hls⟩)
      exact ((h.mem_allLists_iff hf ha hg).mp hc).2 hi
    have := hsub.length_le
    rw [List.length_cons] at this
    omega

/-- Where an element with lists gives way, and keeps lists if it stays, all leaves are there still,
each of them once. -/
theorem leaves_perm (hlists : f.listsOf e ≠ []) (hstays : e ∈ new → g.listsOf e ≠ []) :
    g.leaves.Perm f.leaves := by
  refine (List.perm_ext_iff_of_nodup hg.nodup_leaves hf.nodup_leaves).mpr fun x => ?_
  rw [hg.mem_leaves, hf.mem_leaves, h.mem_iff hf ha]
  by_cases hxe : x = e
  · subst hxe
    tauto
  · rw [h.listsOf_of_ne hxe]
    tauto

/-! ## What is read -/

omit ha hg in
theorem agrees (hi : i ≠ l) (hgone : i ∉ gone) : f.Agrees g i where
  elements := h.elements i hi hgone
  listsOf _ hx := h.listsOf_of_ne fun hc => hi (hf.eq_of_mem hx (hc ▸ h.mem))

/-- Around the list, the same is read as before. -/
theorem around {pre post : List Stop} (hr : f.Around l pre post) : g.Around l pre post := by
  refine hr.transfer hf hg h.root fun i _ hnot => h.agrees hf ?_ fun hi => ?_
  · rintro rfl
    exact hnot 0 (.here i)
  · exact hnot 1 ((Below.here l).inside h.mem (ha.mem_listsOf i hi))

omit hg in
/-- Below the elements that stay or come in, no list has changed. -/
theorem below_unchanged {m : Nat} {j : ListId} (hx : x ∈ f.elements k)
    (hk : k = l ∧ x ≠ e ∨ k ∈ gone) (hi : i ∈ f.listsOf x) (hj : f.Below m i j) :
    j ≠ l ∧ j ∉ gone := by
  obtain ⟨rfl, hne⟩ | hk := hk
  · constructor
    · rintro rfl
      exact hf.not_below_of_inside h.reachable hx hi hj
    · intro hc
      exact hne (hf.branch_unique h.reachable hx hi h.mem (ha.mem_listsOf j hc) hj (.here j)).1
  · have hkl : f.Below 1 l k := (Below.here l).inside h.mem (ha.mem_listsOf k hk)
    have hjl := hkl.trans (hj.head hx hi)
    constructor
    · rintro rfl
      have := hf.eq_zero_of_below h.reachable hjl
      omega
    · intro hc
      obtain ⟨n, hn⟩ := h.reachable
      have := hf.depth_unique (hn.inside h.mem (ha.mem_listsOf j hc)) (hn.trans hjl)
      omega

/-- The elements that stay or come in have the leaves that they had. -/
theorem leavesOf_eq (hx : x ∈ f.elements k) (hk : k = l ∧ x ≠ e ∨ k ∈ gone) :
    g.leavesOf x = f.leavesOf x := by
  have hrk : f.Reachable k := by
    obtain ⟨rfl, -⟩ | hk := hk
    · exact h.reachable
    · exact h.reachable.inside h.mem (ha.mem_listsOf k hk)
  have hxe : x ≠ e := by
    obtain ⟨-, hne⟩ | hk := hk
    · exact hne
    · rintro rfl
      exact h.list_not_mem hf ha (hf.eq_of_mem hx h.mem ▸ hk)
  rw [← leaves_stopsOf, ← leaves_stopsOf]
  refine congrArg leavesIn (hf.stopsOf_congr hg hrk hx (h.listsOf_of_ne hxe) (fun i hi => ?_)
    fun i hi m j hj => ?_)
  · exact (h.reachable_iff hf ha).mpr ⟨hrk.inside hx hi, h.not_mem_of_ne hf ha hx hxe hi⟩
  · obtain ⟨hjl, hjg⟩ := h.below_unchanged hf ha hx hk hi hj
    exact h.agrees hf hjl hjg

/-- Elements that stay in the list have the leaves that they had. -/
theorem leaves_stay {xs : List ElementId} (hxs : ∀ x ∈ xs, x ∈ f.elements l ∧ x ≠ e) :
    xs.flatMap g.leavesOf = xs.flatMap f.leavesOf :=
  List.flatMap_congr fun x hx =>
    h.leavesOf_eq hf ha hg (hxs x hx).1 (.inl ⟨rfl, (hxs x hx).2⟩)

/-- The list on both sides of the element, where the same is read as before. -/
theorem exists_sides : ∃ before after, f.elements l = before ++ e :: after ∧
    g.elements l = before ++ (new ++ after) ∧ f.position e = before.length ∧
    before.flatMap g.leavesOf = before.flatMap f.leavesOf ∧
    after.flatMap g.leavesOf = after.flatMap f.leavesOf := by
  obtain ⟨before, after, hsplit, hsplit'⟩ := h.list
  have hnodup := hf.nodup_elements l
  rw [hsplit, List.nodup_middle, List.nodup_cons] at hnodup
  have hstay : ∀ x ∈ before ++ after, x ∈ f.elements l ∧ x ≠ e := fun x hx =>
    ⟨hsplit ▸ mem_middle hx, ne_of_mem_of_not_mem hx hnodup.1⟩
  refine ⟨before, after, hsplit, hsplit', ?_,
    h.leaves_stay hf ha hg fun x hx => hstay x (List.mem_append_left after hx),
    h.leaves_stay hf ha hg fun x hx => hstay x (List.mem_append_right before hx)⟩
  have he : (f.elements l)[before.length]? = some e := by simp [hsplit]
  exact ((hf.link e l _).mp he).2

/-- What comes in has the leaves of the lists that it has stood in. -/
theorem leaves_come (ls : List ListId) (hls : ∀ i ∈ ls, i ∈ gone) :
    (ls.flatMap f.elements).flatMap g.leavesOf = ls.flatMap f.leavesFrom := by
  rw [List.flatMap_assoc]
  refine List.flatMap_congr fun i hi => ?_
  have hri := h.reachable.inside h.mem (ha.mem_listsOf i (hls i hi))
  rw [hf.leavesFrom_eq hri]
  exact List.flatMap_congr fun x hx => h.leavesOf_eq hf ha hg hx (.inr (hls i hi))

end Accounting

end GivesWay

end FormulaEditor.Formula
