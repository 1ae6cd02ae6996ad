import FormulaEditor.Proofs.Formula.Links
import Mathlib.Data.Finset.Card
import Mathlib.Data.Finset.Image
import Mathlib.Data.Finset.Range

/-!
# Nesting of lists

A list lies below another one if a chain of elements and their lists leads from the one to the
other. In a sound formula a list lies below at most one list at each distance, so what can be
reached from the root is a tree, and no deeper than there are lists.
-/

namespace FormulaEditor.Formula

variable {f g : Formula} {e : ElementId} {a b l i : ListId} {m n : Nat}
  {pending : List ElementId}

/-- A list lies inside another one, so many elements deep. -/
inductive Below (f : Formula) : Nat → ListId → ListId → Prop
  | here (l : ListId) : Below f 0 l l
  | inside {n : Nat} {a l i : ListId} {e : ElementId} (outer : Below f n a l)
      (he : e ∈ f.elements l) (hi : i ∈ f.listsOf e) : Below f (n + 1) a i

/-- The list is part of the formula. -/
def Reachable (f : Formula) (l : ListId) : Prop :=
  ∃ n, f.Below n f.root l

theorem reachable_root : f.Reachable f.root := ⟨0, .here _⟩

theorem Reachable.inside (h : f.Reachable l) (he : e ∈ f.elements l) (hi : i ∈ f.listsOf e) :
    f.Reachable i := by
  obtain ⟨n, hn⟩ := h
  exact ⟨n + 1, hn.inside he hi⟩

/-- What holds of the root, and with a list of the lists inside it, holds of every list of the
formula. -/
@[elab_as_elim]
theorem Reachable.induct {motive : ∀ l, f.Reachable l → Prop} (root : motive f.root reachable_root)
    (inside : ∀ {k i e} (outer : f.Reachable k) (he : e ∈ f.elements k) (hi : i ∈ f.listsOf e),
      motive k outer → motive i (outer.inside he hi)) (h : f.Reachable l) : motive l h := by
  obtain ⟨n, hn⟩ := h
  induction n generalizing l with
  | zero =>
    cases hn
    exact root
  | succ n ih =>
    cases hn with
    | inside outer he hi => exact inside ⟨n, outer⟩ he hi (ih outer)

namespace Below

/-- A chain may be begun one list earlier. -/
theorem head (he : e ∈ f.elements a) (hi : i ∈ f.listsOf e) (h : f.Below n i l) :
    f.Below (n + 1) a l := by
  induction h with
  | here => exact .inside (.here a) he hi
  | inside _ he' hi' ih => exact .inside (ih hi) he' hi'

/-- A chain begins with an element of the outer list. -/
theorem exists_head (h : f.Below (n + 1) a l) :
    ∃ e ∈ f.elements a, ∃ i ∈ f.listsOf e, f.Below n i l := by
  generalize hm : n + 1 = m at h
  induction h generalizing n with
  | here => cases hm
  | @inside m a l i e outer he hi ih =>
    obtain rfl : n = m := by omega
    cases n with
    | zero =>
      cases outer
      exact ⟨e, he, i, hi, .here i⟩
    | succ n =>
      obtain ⟨e', he', i', hi', h⟩ := ih rfl
      exact ⟨e', he', i', hi', h.inside he hi⟩

theorem trans (h : f.Below m a b) (h' : f.Below n b l) : f.Below (m + n) a l := by
  induction h' with
  | here => exact h
  | inside _ he hi ih => exact (ih h).inside he hi

/-- Everything between is there at each distance. -/
theorem split (h : f.Below n a l) (hm : m ≤ n) : ∃ b, f.Below m a b ∧ f.Below (n - m) b l := by
  induction h with
  | here l =>
    obtain rfl : m = 0 := by omega
    exact ⟨l, .here l, .here l⟩
  | @inside n a l i e outer he hi ih =>
    by_cases hmn : m = n + 1
    · subst hmn
      exact ⟨i, outer.inside he hi, by simpa using Below.here i⟩
    · obtain ⟨b, hb, hl⟩ := ih (by omega)
      have : n + 1 - m = n - m + 1 := by omega
      exact ⟨b, hb, this ▸ hl.inside he hi⟩

theorem hasList (hf : f.Linked pending) (ha : f.HasList a) (h : f.Below n a l) : f.HasList l := by
  cases h with
  | here => exact ha
  | inside _ _ hi => exact hf.allocated _ _ hi

end Below

/-! ## Uniqueness -/

namespace Sound

/-- A list of an element belongs to that element only. -/
theorem owner_of_mem (h : f.Sound pending) (he : e ∈ f.elements l) (hi : i ∈ f.listsOf e) :
    f.owner i = some e :=
  (h.whole e l (h.mem_elements.mp he)).owns i hi

/-- An element stands in one list only. -/
theorem eq_of_mem (h : f.Sound pending) (ha : e ∈ f.elements a) (hb : e ∈ f.elements b) : a = b :=
  Option.some.inj ((h.mem_elements.mp ha).symm.trans (h.mem_elements.mp hb))

/-- A list is one of a single element. -/
theorem eq_of_mem_listsOf {e' : ElementId} (h : f.Sound pending) (he : e ∈ f.elements a)
    (hi : i ∈ f.listsOf e) (he' : e' ∈ f.elements b) (hi' : i ∈ f.listsOf e') : e = e' :=
  Option.some.inj ((h.owner_of_mem he hi).symm.trans (h.owner_of_mem he' hi'))

/-- The root is no list of an element. -/
theorem ne_root (h : f.Sound pending) (he : e ∈ f.elements l) (hi : i ∈ f.listsOf e) :
    i ≠ f.root := by
  rintro rfl
  simpa [h.root_owner] using h.owner_of_mem he hi

/-- The root lies in no other list. -/
theorem not_below_root (h : f.Sound pending) : ¬f.Below (n + 1) l f.root := by
  intro hroot
  generalize hr : f.root = r at hroot
  cases hroot with
  | inside _ he hi => exact h.ne_root he hi hr.symm

theorem below_unique (h : f.Sound pending) (ha : f.Below n a l) (hb : f.Below n b l) : a = b := by
  induction ha generalizing b with
  | here => cases hb; rfl
  | inside _ he hi ih =>
    cases hb with
    | inside outer he' hi' =>
      obtain rfl := h.eq_of_mem_listsOf he hi he' hi'
      obtain rfl := h.eq_of_mem he he'
      exact ih outer

theorem depth_unique (h : f.Sound pending) (hm : f.Below m f.root l) (hn : f.Below n f.root l) :
    m = n := by
  generalize hr : f.root = r at hm
  induction hm generalizing n with
  | here =>
    subst hr
    cases hn with
    | here => rfl
    | inside _ he hi => exact absurd rfl (h.ne_root he hi)
  | inside _ he hi ih =>
    subst hr
    cases hn with
    | here => exact absurd rfl (h.ne_root he hi)
    | inside outer he' hi' =>
      obtain rfl := h.eq_of_mem_listsOf he hi he' hi'
      obtain rfl := h.eq_of_mem he he'
      rw [ih outer rfl]

/-- A list of the formula does not lie inside itself. -/
theorem eq_zero_of_below (h : f.Sound pending) (hl : f.Reachable l) (hn : f.Below n l l) : n = 0 := by
  obtain ⟨m, hm⟩ := hl
  have := h.depth_unique hm (hm.trans hn)
  omega

/-- A list inside an element of a list is another one. -/
theorem ne_of_below (h : f.Sound pending) (hl : f.Reachable l) (hb : f.Below (n + 1) l a) :
    a ≠ l := by
  rintro rfl
  exact Nat.succ_ne_zero n (h.eq_zero_of_below hl hb)

/-- A list does not lie inside an element that stands in it. -/
theorem not_below_of_inside (h : f.Sound pending) (hl : f.Reachable l) (he : e ∈ f.elements l)
    (hi : i ∈ f.listsOf e) : ¬f.Below n i l :=
  fun hb => h.ne_of_below hl (hb.head he hi) rfl

theorem not_mem_listsOf (h : f.Sound pending) (hl : f.Reachable l) (he : e ∈ f.elements l) :
    l ∉ f.listsOf e :=
  fun hi => h.not_below_of_inside hl he hi (.here l)

/-- Lists of the formula nest less deeply than there are lists. -/
theorem depth_lt (h : f.Sound pending) (hn : f.Below n f.root l) : n < f.listSlots.size := by
  -- The lists on the way are different ones, since they lie at different depths.
  have hex : ∀ m, ∃ b, m ≤ n → f.Below m f.root b := fun m => by
    by_cases hm : m ≤ n
    · obtain ⟨b, hb, -⟩ := hn.split hm
      exact ⟨b, fun _ => hb⟩
    · exact ⟨l, fun hc => absurd hc hm⟩
  choose b hb using hex
  have hmaps : ∀ m ∈ Finset.range (n + 1), (b m).index ∈ Finset.range f.listSlots.size := by
    intro m hm
    exact Finset.mem_range.mpr
      ((hb m (Nat.le_of_lt_succ (Finset.mem_range.mp hm))).hasList h.toLinked h.root_hasList)
  have hinj : Set.InjOn (fun m => (b m).index) (Finset.range (n + 1)) := by
    intro x hx y hy hxy
    have hx := hb x (Nat.le_of_lt_succ (Finset.mem_range.mp hx))
    have hy := hb y (Nat.le_of_lt_succ (Finset.mem_range.mp hy))
    have : b x = b y := congrArg ListId.mk hxy
    exact h.depth_unique hx (this ▸ hy)
  have := Finset.card_le_card_of_injOn _ hmaps hinj
  simp only [Finset.card_range] at this
  omega

theorem reachable_hasList (h : f.Sound pending) (hl : f.Reachable l) : f.HasList l := by
  obtain ⟨n, hn⟩ := hl
  exact hn.hasList h.toLinked h.root_hasList

/-- The owner of a list inside the formula stands in a list of the formula. -/
theorem outer_of_reachable (h : f.Sound pending) (hl : f.Reachable l) (ho : f.owner l = some e) :
    ∃ outer, f.parent e = some outer ∧ f.Reachable outer := by
  obtain ⟨n, hn⟩ := hl
  cases hn with
  | here => simp [h.root_owner] at ho
  | @inside n _ outer _ e' hn he hi =>
    obtain rfl := Option.some.inj ((h.owner_of_mem he hi).symm.trans ho)
    exact ⟨outer, h.mem_elements.mp he, n, hn⟩

theorem mem_listsOf_of_reachable (h : f.Sound pending) (hl : f.Reachable l)
    (ho : f.owner l = some e) : l ∈ f.listsOf e := by
  obtain ⟨n, hn⟩ := hl
  cases hn with
  | here => simp [h.root_owner] at ho
  | inside _ he hi =>
    obtain rfl := Option.some.inj ((h.owner_of_mem he hi).symm.trans ho)
    exact hi

end Sound

/-! ## What an edit keeps -/

/-- A change that leaves the elements down to some depth and their lists in place keeps every list
down to that depth. -/
theorem Below.of_agree (hr : g.root = f.root)
    (hk : ∀ m < n, ∀ l, f.Below m f.root l → ∀ e ∈ f.elements l, ∀ i ∈ f.listsOf e,
      e ∈ g.elements l ∧ i ∈ g.listsOf e)
    (hm : m ≤ n) (h : f.Below m f.root l) : g.Below m g.root l := by
  generalize hr' : f.root = r at h
  induction h with
  | here =>
    rw [hr, hr']
    exact .here _
  | @inside m r l i e outer he hi ih =>
    subst hr'
    obtain ⟨he', hi'⟩ := hk m (by omega) l outer e he i hi
    exact (ih (by omega) rfl).inside he' hi'

/-- A change inside a list leaves the list part of the formula. -/
theorem Sound.reachable_of_agree (h : f.Sound pending) (hl : f.Reachable l) (hr : g.root = f.root)
    (hk : ∀ k, f.Reachable k → (∀ n, ¬f.Below n l k) → ∀ e ∈ f.elements k, ∀ i ∈ f.listsOf e,
      e ∈ g.elements k ∧ i ∈ g.listsOf e) : g.Reachable l := by
  obtain ⟨n, hn⟩ := hl
  refine ⟨n, hn.of_agree (n := n) hr (fun m hm k hkm => hk k ⟨m, hkm⟩ fun d hd => ?_) le_rfl⟩
  have := h.depth_unique hkm (hn.trans hd)
  omega

/-- Whatever hangs in the first formula hangs at the same place in the second. -/
structure Keeps (f g : Formula) : Prop where
  root : g.root = f.root
  link : ∀ l, ∀ e ∈ f.elements l, ∀ i ∈ f.listsOf e, e ∈ g.elements l ∧ i ∈ g.listsOf e

namespace Keeps

variable {h : Formula}

theorem refl (f : Formula) : f.Keeps f :=
  ⟨rfl, fun _ _ he _ hi => ⟨he, hi⟩⟩

theorem trans (hfg : f.Keeps g) (hgh : g.Keeps h) : f.Keeps h where
  root := hgh.root.trans hfg.root
  link l e he i hi := by
    obtain ⟨he', hi'⟩ := hfg.link l e he i hi
    exact hgh.link l e he' i hi'

theorem below (hk : f.Keeps g) (h : f.Below n f.root l) : g.Below n g.root l :=
  h.of_agree (n := n) hk.root (fun _ _ l _ e he i hi => hk.link l e he i hi) (Nat.le_refl n)

theorem reachable (hk : f.Keeps g) (h : f.Reachable l) : g.Reachable l := by
  obtain ⟨n, hn⟩ := h
  exact ⟨n, hk.below hn⟩

end Keeps

end FormulaEditor.Formula
