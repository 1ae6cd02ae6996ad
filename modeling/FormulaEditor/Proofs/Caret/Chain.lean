import FormulaEditor.Caret.Selection
import FormulaEditor.Proofs.Caret.Movement
import FormulaEditor.Proofs.Formula.Walking

/-!
# The chain of places around a place

The lists around a place form a chain that ends with the root, with one place in each of them. The
chains around two places of a formula therefore meet, and they meet first in the lowest list that
both of them go through.
-/

namespace FormulaEditor

namespace Formula

/-- The place itself, or the place before the element around it, so many elements further out. -/
inductive Encloses (f : Formula) : Nat → Place → Place → Prop
  | here (p : Place) : Encloses f 0 p p
  | around {n : Nat} {r p : Place} {e : ElementId} {i : ListId}
    (he : (f.elements r.list)[r.pos]? = some e) (hi : i ∈ f.listsOf e) (h : f.Below n i p.list) :
    Encloses f (n + 1) r p

variable {f g : Formula} {p r : Place} {e : ElementId} {i l l' : ListId} {a b k k' m n : Nat}
  {pending : List ElementId}

namespace Encloses

theorem below (h : f.Encloses n r p) : f.Below n r.list p.list := by
  cases h with
  | here => exact .here _
  | around he hi h => exact h.head (List.mem_of_getElem? he) hi

theorem of_below (h : f.Below n l p.list) : ∃ pos, f.Encloses n ⟨l, pos⟩ p := by
  cases n with
  | zero =>
    cases h
    exact ⟨p.pos, .here p⟩
  | succ n =>
    obtain ⟨e, he, i, hi, h⟩ := h.exists_head
    obtain ⟨pos, hpos⟩ := List.mem_iff_getElem?.mp he
    exact ⟨pos, .around hpos hi h⟩

theorem zero_iff : f.Encloses 0 r p ↔ r = p := by
  constructor
  · rintro ⟨⟩
    rfl
  · rintro rfl
    exact .here r

end Encloses

namespace Sound

variable (h : f.Sound pending)

include h

/-- What is around a place is the place before the element around it, and what is around that. -/
theorem encloses_succ (he : f.parent e = some l) (hp : p.list ∈ f.listsOf e) :
    f.Encloses (n + 1) r p ↔ f.Encloses n r ⟨l, f.position e⟩ := by
  have hmem := h.mem_elements.mpr he
  have howner := h.owner_of_mem hmem hp
  constructor
  · intro hr
    obtain ⟨rl, rpos⟩ := r
    cases hr with
    | around he' hi' hbelow =>
    cases hbelow with
    | here =>
      have howner' := h.owner_of_mem (List.mem_of_getElem? he') hi'
      obtain rfl := Option.some.inj (howner'.symm.trans howner)
      obtain ⟨hparent, rfl⟩ := (h.link _ _ _).mp he'
      obtain rfl := Option.some.inj (hparent.symm.trans he)
      exact .here _
    | inside outer hmem' hi'' =>
      have howner' := h.owner_of_mem hmem' hi''
      obtain rfl := Option.some.inj (howner'.symm.trans howner)
      obtain rfl := Option.some.inj ((h.mem_elements.mp hmem').symm.trans he)
      exact .around he' hi' outer
  · intro hr
    cases hr with
    | here => exact .around (h.getElem?_position he) hp (.here _)
    | around he' hi hbelow => exact .around he' hi (hbelow.inside hmem hp)

/-- The chain of places around a place, by the distance. -/
theorem getElem?_enclosingWithin (hn : f.Below n f.root p.list) (hk : n < k) :
    Succeeds (f.enclosingWithin k p) fun places =>
      ∀ (m : Nat) (r : Place), places[m]? = some r ↔ f.Encloses m r p := by
  generalize hl : p.list = l at hn
  generalize hr : f.root = root at hn
  induction hn generalizing p k with
  | here l =>
    obtain ⟨k, rfl⟩ : ∃ j, k = j + 1 := ⟨k - 1, by omega⟩
    have hroot : p.list = f.root := hl.trans hr.symm
    rw [enclosingWithin, hroot]
    simp only [h.root_owner, Succeeds.ok_iff]
    intro m r
    cases m with
    | zero => simp [Encloses.zero_iff, eq_comm]
    | succ m =>
      have hnone : ¬f.Encloses (m + 1) r p := fun hr => h.not_below_root (hroot ▸ hr.below)
      simpa using hnone
  | @inside n root outer i e hn he hi ih =>
    subst hl hr
    obtain ⟨k, rfl⟩ : ∃ j, k = j + 1 := ⟨k - 1, by omega⟩
    have hparent := h.mem_elements.mp he
    rw [enclosingWithin, h.owner_of_mem he hi]
    simp only [hparent]
    have hchain := ih (p := ⟨outer, f.position e⟩) (k := k) (by omega) rfl rfl
    refine hchain.bind fun places hplaces => .ok fun m r => ?_
    cases m with
    | zero => simp [Encloses.zero_iff, eq_comm]
    | succ m => rw [List.getElem?_cons_succ, hplaces, h.encloses_succ hparent hi]

theorem getElem?_enclosing (hp : f.Reachable p.list) : Succeeds (f.enclosing p) fun places =>
    ∀ (n : Nat) (r : Place), places[n]? = some r ↔ f.Encloses n r p := by
  obtain ⟨n, hn⟩ := hp
  exact h.getElem?_enclosingWithin hn (h.depth_lt hn)

/-! ## Uniqueness -/

/-- Of two lists around a list the one closer to it lies in the other. -/
theorem below_of_le (hm : f.Below m l i) (hn : f.Below n l' i) (hmn : m ≤ n) :
    f.Below (n - m) l' l := by
  obtain ⟨b, hb, hbi⟩ := hn.split (Nat.sub_le n m)
  rw [Nat.sub_sub_self hmn] at hbi
  exact h.below_unique hbi hm ▸ hb

/-- What a list of the formula lies in is a list of the formula. -/
theorem reachable_of_below (hi : f.Reachable i) (hn : f.Below n l i) : f.Reachable l := by
  obtain ⟨N, hN⟩ := hi
  obtain hle | hlt := le_or_gt n N
  · exact ⟨_, h.below_of_le hn hN hle⟩
  · -- Otherwise the root would lie inside the list.
    have hroot := h.below_of_le hN hn (Nat.le_of_lt hlt)
    obtain ⟨d, hd⟩ : ∃ d, n - N = d + 1 := ⟨n - N - 1, by omega⟩
    exact absurd (hd ▸ hroot) h.not_below_root

theorem below_antisymm (hl : f.Reachable l) (hm : f.Below m l l') (hn : f.Below n l' l) :
    l = l' := by
  have := h.eq_zero_of_below hl (hm.trans hn)
  obtain rfl : m = 0 := by omega
  cases hm
  rfl

/-- In a list around a place there is one place around it. -/
theorem encloses_unique (hl : f.Reachable l) (hm : f.Encloses m ⟨l, a⟩ p)
    (hn : f.Encloses n ⟨l, b⟩ p) : m = n ∧ a = b := by
  obtain ⟨N, hN⟩ := hl
  have hdepth := h.depth_unique (hN.trans hm.below) (hN.trans hn.below)
  obtain rfl : m = n := by omega
  refine ⟨rfl, ?_⟩
  cases hm with
  | here =>
    cases hn
    rfl
  | around he hi hbelow =>
    cases hn with
    | around he' hi' hbelow' =>
      obtain rfl := h.below_unique hbelow hbelow'
      have howner := h.owner_of_mem (List.mem_of_getElem? he) hi
      have howner' := h.owner_of_mem (List.mem_of_getElem? he') hi'
      obtain rfl := Option.some.inj (howner.symm.trans howner')
      exact ((h.link _ _ _).mp he).2.symm.trans ((h.link _ _ _).mp he').2

end Sound

/-- The places around a place are known from where elements stand and whose lists are. -/
theorem Tidy.enclosingWithin_congr (hf : f.Tidy) (hn : f.Below n f.root p.list)
    (ho : ∀ l, f.Reachable l → g.owner l = f.owner l) (hp : ∀ e, g.parent e = f.parent e)
    (hpos : ∀ e, g.position e = f.position e) (hk : n < k) (hk' : n < k') :
    g.enclosingWithin k' p = f.enclosingWithin k p := by
  generalize hl : p.list = l at hn
  generalize hr : f.root = r at hn
  have hreach : f.Reachable p.list := ⟨n, by rwa [hl, hr]⟩
  induction hn generalizing p k k' with
  | here l =>
    have hroot : p.list = f.root := hl.trans hr.symm
    obtain ⟨k, rfl⟩ : ∃ j, k = j + 1 := ⟨k - 1, by omega⟩
    obtain ⟨k', rfl⟩ : ∃ j, k' = j + 1 := ⟨k' - 1, by omega⟩
    rw [Formula.enclosingWithin, Formula.enclosingWithin, ho p.list hreach, hroot, hf.root_owner]
  | @inside n r outer i e hn he hi ih =>
    subst hl hr
    obtain ⟨k, rfl⟩ : ∃ j, k = j + 1 := ⟨k - 1, by omega⟩
    obtain ⟨k', rfl⟩ : ∃ j, k' = j + 1 := ⟨k' - 1, by omega⟩
    rw [Formula.enclosingWithin, Formula.enclosingWithin, ho p.list hreach,
      hf.toSound.owner_of_mem he hi]
    simp only [hp, hpos, hf.mem_elements.mp he]
    rw [@ih ⟨outer, f.position e⟩ k k' (by omega) (by omega) rfl rfl ⟨n, hn⟩]

end Formula

/-! ## Where two chains meet -/

section Meeting

variable {deeper hereDeeper thereDeeper : Bool} {others places : List Place} {l : ListId}
  {here there : Nat}

theorem exists_meet? (deeper : Bool) (h : ∃ p ∈ places, ∃ q ∈ others, q.list = p.list) :
    ∃ m, meet? deeper others places = some m := by
  induction places generalizing deeper with
  | nil => simp at h
  | cons p places ih =>
    unfold meet?
    split
    · exact ⟨_, rfl⟩
    · rename_i hnone
      refine ih true ?_
      obtain ⟨p', hp, q, hq, hl⟩ := h
      obtain rfl | hp := List.mem_cons.mp hp
      · -- The other chain has a place in this very list, so the ends would have met.
        obtain ⟨j, hj⟩ : ∃ j, (others.findIdx? fun q => q.list = p'.list) = some j :=
          Option.isSome_iff_exists.mp (by simpa using ⟨q, hq, hl⟩)
        obtain ⟨q', hq'⟩ : ∃ q', (others.find? fun q => q.list = p'.list) = some q' :=
          Option.isSome_iff_exists.mp (by simpa using ⟨q, hq, hl⟩)
        exact absurd hq' (hnone j q' hj)
      · exact ⟨p', hp, q, hq, hl⟩

/-- Two chains meet at the first list of the one that the other goes through too, and there at the
first place of the other. -/
theorem meet?_eq_some (h : meet? deeper others places =
      some (l, (here, hereDeeper), (there, thereDeeper))) :
    ∃ m n, places[m]? = some ⟨l, here⟩ ∧ others[n]? = some ⟨l, there⟩ ∧
      hereDeeper = (deeper || m != 0) ∧ thereDeeper = (n != 0) ∧
      ∀ m' < m, ∀ p, places[m']? = some p → ∀ q ∈ others, q.list ≠ p.list := by
  induction places generalizing deeper with
  | nil => simp [meet?] at h
  | cons p places ih =>
    unfold meet? at h
    split at h
    · rename_i n q hn hq
      obtain ⟨rfl, ⟨rfl, rfl⟩, rfl, rfl⟩ := by
        simpa only [Option.some.injEq, Prod.mk.injEq] using h
      have hlist : q.list = p.list := by simpa using List.find?_some hq
      rw [List.find?_eq_bind_findIdx?_getElem?, hn, Option.bind_some] at hq
      exact ⟨0, n, rfl, by rw [hq, ← hlist], by simp, rfl, by simp⟩
    · rename_i hnone
      obtain ⟨m, n, hm, hn, rfl, rfl, hfirst⟩ := ih h
      refine ⟨m + 1, n, hm, hn, by simp, rfl, fun m' hm' p' hp' q hq hlist => ?_⟩
      cases m' with
      | zero =>
        -- The other chain would have been met in the first list already.
        obtain rfl : p = p' := by simpa using hp'
        obtain ⟨j, hj⟩ : ∃ j, (others.findIdx? fun q => q.list = p.list) = some j :=
          Option.isSome_iff_exists.mp (by simpa using ⟨q, hq, hlist⟩)
        obtain ⟨q', hq'⟩ : ∃ q', (others.find? fun q => q.list = p.list) = some q' :=
          Option.isSome_iff_exists.mp (by simpa using ⟨q, hq, hlist⟩)
        exact hnone j q' hj hq'
      | succ m' => exact hfirst m' (by omega) p' hp' q hq hlist

end Meeting

end FormulaEditor
