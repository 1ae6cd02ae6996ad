import FormulaEditor.Formula.Path
import FormulaEditor.Proofs.Formula.Nesting
import Mathlib.Data.List.Nodup

/-!
# Walks through a formula

A walk meets the lists that lie below where it begins, as deep as it may go. From the root it meets
every list and every element of the formula, each of them once.
-/

namespace FormulaEditor.Formula

variable {f : Formula} {e e' x : ElementId} {a i i' l l' : ListId} {depth m n : Nat}
  {pending : List ElementId}

/-- The elements and the lists that can be reached from the root, each of them once. -/
structure Inventory (f : Formula) (es : List ElementId) (ls : List ListId) : Prop where
  elements : ∀ e, e ∈ es ↔ ∃ l, f.Reachable l ∧ e ∈ f.elements l
  lists : ∀ l, l ∈ ls ↔ f.Reachable l
  nodup_elements : es.Nodup
  nodup_lists : ls.Nodup

theorem mem_listsWithin : l ∈ f.listsWithin depth a ↔ ∃ n < depth, f.Below n a l := by
  induction depth generalizing a with
  | zero => simp [listsWithin]
  | succ depth ih =>
    simp only [listsWithin, List.mem_cons, List.mem_flatMap, ih]
    constructor
    · rintro (rfl | ⟨e, he, i, hi, n, hn, hb⟩)
      · exact ⟨0, depth.succ_pos, .here l⟩
      · exact ⟨n + 1, Nat.succ_lt_succ hn, hb.head he hi⟩
    · rintro ⟨_ | n, hn, hb⟩
      · cases hb
        exact .inl rfl
      · obtain ⟨e, he, i, hi, hb⟩ := hb.exists_head
        exact .inr ⟨e, he, i, hi, n, Nat.lt_of_succ_lt_succ hn, hb⟩

theorem mem_elementsWithin :
    x ∈ f.elementsWithin depth a ↔ ∃ n < depth, ∃ l, f.Below n a l ∧ x ∈ f.elements l := by
  induction depth generalizing a with
  | zero => simp [elementsWithin]
  | succ depth ih =>
    simp only [elementsWithin, List.mem_flatMap, List.mem_cons, ih]
    constructor
    · rintro ⟨e, he, rfl | ⟨i, hi, n, hn, l, hb, hx⟩⟩
      · exact ⟨0, depth.succ_pos, a, .here a, he⟩
      · exact ⟨n + 1, Nat.succ_lt_succ hn, l, hb.head he hi, hx⟩
    · rintro ⟨_ | n, hn, l, hb, hx⟩
      · cases hb
        exact ⟨x, hx, .inl rfl⟩
      · obtain ⟨e, he, i, hi, hb⟩ := hb.exists_head
        exact ⟨e, he, .inr ⟨i, hi, n, Nat.lt_of_succ_lt_succ hn, l, hb, hx⟩⟩

namespace Sound

variable (h : f.Sound pending)

include h

/-- A walk from the root meets the lists of the formula. -/
theorem mem_allLists : l ∈ f.allLists ↔ f.Reachable l := by
  rw [allLists, mem_listsWithin]
  exact ⟨fun ⟨n, _, hn⟩ => ⟨n, hn⟩, fun ⟨n, hn⟩ => ⟨n, h.depth_lt hn, hn⟩⟩

/-- A walk from the root meets the elements that stand in a list of the formula. -/
theorem mem_allElements : e ∈ f.allElements ↔ ∃ l, f.parent e = some l ∧ f.Reachable l := by
  rw [allElements, mem_elementsWithin]
  constructor
  · rintro ⟨n, -, l, hn, he⟩
    exact ⟨l, h.mem_elements.mp he, n, hn⟩
  · rintro ⟨l, hp, n, hn⟩
    exact ⟨n, h.depth_lt hn, l, hn, h.mem_elements.mpr hp⟩

/-! ## Deep enough -/

/-- A walk that may go as deep as the formula meets the same lists as any that may go deeper. -/
theorem listsWithin_eq {depth' : Nat} (hn : f.Below n f.root l)
    (hd : f.listSlots.size ≤ n + depth) (hd' : f.listSlots.size ≤ n + depth') :
    f.listsWithin depth l = f.listsWithin depth' l := by
  have hlt := h.depth_lt hn
  induction depth generalizing n l depth' with
  | zero => omega
  | succ depth ih =>
    obtain ⟨depth', rfl⟩ : ∃ k, depth' = k + 1 := ⟨depth' - 1, by omega⟩
    refine congrArg (l :: ·) (List.flatMap_congr fun e he => List.flatMap_congr fun i hi => ?_)
    have hi := hn.inside he hi
    exact ih hi (by omega) (by omega) (h.depth_lt hi)

theorem elementsWithin_eq {depth' : Nat} (hn : f.Below n f.root l)
    (hd : f.listSlots.size ≤ n + depth) (hd' : f.listSlots.size ≤ n + depth') :
    f.elementsWithin depth l = f.elementsWithin depth' l := by
  have hlt := h.depth_lt hn
  induction depth generalizing n l depth' with
  | zero => omega
  | succ depth ih =>
    obtain ⟨depth', rfl⟩ : ∃ k, depth' = k + 1 := ⟨depth' - 1, by omega⟩
    refine List.flatMap_congr fun e he =>
      congrArg (e :: ·) (List.flatMap_congr fun i hi => ?_)
    have hi := hn.inside he hi
    exact ih hi (by omega) (by omega) (h.depth_lt hi)

/-- Climbing from a list to the root takes as many steps as the list is deep. -/
theorem pathWithin?_eq {k k' : Nat} (hn : f.Below n f.root l) (hk : n < k) (hk' : n < k') :
    f.pathWithin? k l = f.pathWithin? k' l := by
  generalize hr : f.root = r at hn
  induction hn generalizing k k' with
  | here l =>
    obtain ⟨k, rfl⟩ : ∃ j, k = j + 1 := ⟨k - 1, by omega⟩
    obtain ⟨k', rfl⟩ : ∃ j, k' = j + 1 := ⟨k' - 1, by omega⟩
    rw [pathWithin?, pathWithin?, if_pos hr.symm, if_pos hr.symm]
  | inside outer he hi ih =>
    obtain ⟨k, rfl⟩ : ∃ j, k = j + 1 := ⟨k - 1, by omega⟩
    obtain ⟨k', rfl⟩ : ∃ j, k' = j + 1 := ⟨k' - 1, by omega⟩
    have houter : f.pathWithin? k _ = f.pathWithin? k' _ := ih (by omega) (by omega) hr
    rw [pathWithin?, pathWithin?, h.owner_of_mem he hi]
    simp only [Option.bind_eq_bind, Option.bind_some, h.mem_elements.mp he, houter]

/-! ## Nothing is met twice -/

/-- What lies below two lists of a list's elements lies below one list of one element. -/
theorem branch_unique (ha : f.Reachable a) (he : e ∈ f.elements a) (hi : i ∈ f.listsOf e)
    (he' : e' ∈ f.elements a) (hi' : i' ∈ f.listsOf e') (hm : f.Below m i l)
    (hn : f.Below n i' l) : e = e' ∧ i = i' := by
  obtain ⟨k, hk⟩ := ha
  have hdepth := h.depth_unique ((hk.inside he hi).trans hm) ((hk.inside he' hi').trans hn)
  obtain rfl : m = n := by omega
  obtain rfl := h.below_unique hm hn
  exact ⟨h.eq_of_mem_listsOf he hi he' hi', rfl⟩

theorem nodup_listsWithin (ha : f.Reachable a) : (f.listsWithin depth a).Nodup := by
  induction depth generalizing a with
  | zero => exact List.nodup_nil
  | succ depth ih =>
    simp only [listsWithin, List.nodup_cons, List.mem_flatMap, mem_listsWithin]
    constructor
    · rintro ⟨e, he, i, hi, n, -, hb⟩
      exact h.not_below_of_inside ha he hi hb
    · refine List.nodup_flatMap.mpr ⟨fun e he => List.nodup_flatMap.mpr ⟨fun i hi => ?_, ?_⟩, ?_⟩
      · exact ih (ha.inside he hi)
      · refine (h.whole e a (h.mem_elements.mp he)).nodup.imp_of_mem fun hi hi' hne l hl hl' => hne ?_
        obtain ⟨m, -, hm⟩ := mem_listsWithin.mp hl
        obtain ⟨n, -, hn⟩ := mem_listsWithin.mp hl'
        exact (h.branch_unique ha he hi he hi' hm hn).2
      · refine (h.nodup_elements a).imp_of_mem fun he he' hne l hl hl' => hne ?_
        simp only [List.mem_flatMap, mem_listsWithin] at hl hl'
        obtain ⟨i, hi, m, -, hm⟩ := hl
        obtain ⟨i', hi', n, -, hn⟩ := hl'
        exact (h.branch_unique ha he hi he' hi' hm hn).1

theorem nodup_elementsWithin (ha : f.Reachable a) : (f.elementsWithin depth a).Nodup := by
  induction depth generalizing a with
  | zero => exact List.nodup_nil
  | succ depth ih =>
    -- Two walks that meet an element meet its list.
    have hinside : ∀ {e i n l x}, e ∈ f.elements a → i ∈ f.listsOf e → f.Below n i l →
        x ∈ f.elements a → x ∉ f.elements l := by
      intro e i n l x he hi hb hx hx'
      obtain rfl := h.eq_of_mem hx hx'
      exact h.not_below_of_inside ha he hi hb
    simp only [elementsWithin]
    refine List.nodup_flatMap.mpr ⟨fun e he => List.nodup_cons.mpr ⟨?_, ?_⟩, ?_⟩
    · simp only [List.mem_flatMap, mem_elementsWithin]
      rintro ⟨i, hi, n, -, l, hb, hx⟩
      exact hinside he hi hb he hx
    · refine List.nodup_flatMap.mpr ⟨fun i hi => ih (ha.inside he hi), ?_⟩
      refine (h.whole e a (h.mem_elements.mp he)).nodup.imp_of_mem fun hi hi' hne x hx hx' => hne ?_
      obtain ⟨m, -, l, hm, hl⟩ := mem_elementsWithin.mp hx
      obtain ⟨n, -, l', hn, hl'⟩ := mem_elementsWithin.mp hx'
      obtain rfl := h.eq_of_mem hl hl'
      exact (h.branch_unique ha he hi he hi' hm hn).2
    · refine (h.nodup_elements a).imp_of_mem fun he he' hne x hx hx' => hne ?_
      simp only [List.mem_cons, List.mem_flatMap, mem_elementsWithin] at hx hx'
      obtain rfl | ⟨i, hi, m, -, l, hm, hl⟩ := hx
      · obtain rfl | ⟨i', hi', n, -, l', hn, hl'⟩ := hx'
        · rfl
        · exact absurd hl' (hinside he' hi' hn he)
      · obtain rfl | ⟨i', hi', n, -, l', hn, hl'⟩ := hx'
        · exact absurd hl (hinside he hi hm he')
        · obtain rfl := h.eq_of_mem hl hl'
          exact (h.branch_unique ha he hi he' hi' hm hn).1

theorem nodup_allLists : f.allLists.Nodup :=
  h.nodup_listsWithin reachable_root

theorem nodup_allElements : f.allElements.Nodup :=
  h.nodup_elementsWithin reachable_root

theorem inventory : f.Inventory f.allElements f.allLists where
  elements e := by
    rw [h.mem_allElements]
    simp only [h.mem_elements, and_comm]
  lists _ := h.mem_allLists
  nodup_elements := h.nodup_allElements
  nodup_lists := h.nodup_allLists

end Sound

end FormulaEditor.Formula
