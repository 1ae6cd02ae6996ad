import FormulaEditor.Proofs.Caret.Chain

/-!
# Selections

The chains around the two ends of a selection meet in their lowest common list. In that list each
end stands at a gap or inside an element, and what is selected is the shortest run that has both
gaps at its ends or within and both elements inside.
-/

namespace FormulaEditor

/-- The run lies in a list of the formula. -/
structure Selection.Valid (s : Selection) (f : Formula) : Prop where
  reachable : f.Reachable s.list
  start_le : s.start ≤ s.stop
  stop_le : s.stop ≤ f.length s.list

namespace Formula

/-- A run of a list reaches a place: the place is a gap of the run, or lies inside one of its
elements. -/
def Covers (f : Formula) (l : ListId) (a b : Nat) (p : Place) : Prop :=
  (p.list = l ∧ a ≤ p.pos ∧ p.pos ≤ b) ∨
    ∃ k e i n, a ≤ k ∧ k < b ∧ (f.elements l)[k]? = some e ∧ i ∈ f.listsOf e ∧ f.Below n i p.list

/-- The lowest list that both places lie in, directly or inside elements. -/
structure Innermost (f : Formula) (p q : Place) (l : ListId) : Prop where
  left : ∃ n, f.Below n l p.list
  right : ∃ n, f.Below n l q.list
  lowest : ∀ k, (∃ n, f.Below n k p.list) → (∃ n, f.Below n k q.list) → ∃ n, f.Below n k l

end Formula

/-- The shortest run of the lowest common list of two places that reaches both. -/
structure Selection.IsHull (s : Selection) (f : Formula) (p q : Place) : Prop where
  innermost : f.Innermost p q s.list
  start_le : s.start ≤ s.stop
  stop_le : s.stop ≤ f.length s.list
  covers_left : f.Covers s.list s.start s.stop p
  covers_right : f.Covers s.list s.start s.stop q
  least : ∀ a b, f.Covers s.list a b p → f.Covers s.list a b q → a ≤ s.start ∧ s.stop ≤ b

namespace Formula

variable {f : Formula} {p : Place} {l : ListId} {a b k n : Nat} {pending : List ElementId}

/-- Where a run has to end to reach a place: at its gap, or behind the element that it lies in so
many elements deep. -/
def reach (n k : Nat) : Nat :=
  if n = 0 then k else k + 1

theorem le_reach : k ≤ reach n k := by
  unfold reach
  split <;> omega

theorem Encloses.reach_le {r : Place} (h : f.Encloses n r p) (hp : f.IsPlace p) :
    reach n r.pos ≤ f.length r.list := by
  cases h with
  | here => exact hp.le_length
  | around he _ _ => exact (List.getElem?_eq_some_iff.mp he).1

/-- A run reaches a place just if it has the place around it in that list at its ends or within, and
the element there, if the place lies in one, inside. -/
theorem Sound.covers_iff (h : f.Sound pending) (hl : f.Reachable l) (hn : f.Encloses n ⟨l, k⟩ p) :
    f.Covers l a b p ↔ a ≤ k ∧ reach n k ≤ b := by
  have hdirect : p.list = l → f.Encloses 0 ⟨l, p.pos⟩ p := by
    rintro rfl
    exact .here p
  constructor
  · rintro (⟨hp, ha, hb⟩ | ⟨k', e, i, m, ha, hb, he, hi, hbelow⟩)
    · obtain ⟨rfl, rfl⟩ := h.encloses_unique hl hn (hdirect hp)
      exact ⟨ha, hb⟩
    · obtain ⟨rfl, rfl⟩ := h.encloses_unique hl hn (.around (r := ⟨l, k'⟩) he hi hbelow)
      exact ⟨ha, hb⟩
  · rintro ⟨ha, hb⟩
    cases hn with
    | here => exact .inl ⟨rfl, ha, hb⟩
    | around he hi hbelow => exact .inr ⟨k, _, _, _, ha, hb, he, hi, hbelow⟩

end Formula

theorem Selection.IsHull.valid {s : Selection} {f : Formula} {p q : Place}
    {pending : List ElementId} (h : s.IsHull f p q) (hf : f.Sound pending)
    (hp : f.Reachable p.list) : s.Valid f where
  reachable := by
    obtain ⟨n, hn⟩ := h.innermost.left
    exact hf.reachable_of_below hp hn
  start_le := h.start_le
  stop_le := h.stop_le

theorem Selection.IsHull.symm {s : Selection} {f : Formula} {p q : Place} (h : s.IsHull f p q) :
    s.IsHull f q p where
  innermost := ⟨h.innermost.right, h.innermost.left, fun k hq hp => h.innermost.lowest k hp hq⟩
  start_le := h.start_le
  stop_le := h.stop_le
  covers_left := h.covers_right
  covers_right := h.covers_left
  least a b hq hp := h.least a b hp hq

/-- An end that lies in the list of the run itself is an end of the run. -/
theorem Selection.IsHull.pos_eq {s : Selection} {f : Formula} {p q : Place}
    {pending : List ElementId} (h : s.IsHull f p q) (hf : f.Sound pending)
    (hp : f.Reachable p.list) (hl : p.list = s.list) : p.pos = s.start ∨ p.pos = s.stop := by
  obtain ⟨l, a, b⟩ := s
  obtain ⟨_, pos⟩ := p
  obtain rfl : _ = l := hl
  obtain ⟨n, hn⟩ := h.innermost.right
  obtain ⟨k, hk⟩ := Formula.Encloses.of_below hn
  have hleft := fun {c d} => hf.covers_iff (a := c) (b := d) hp (.here ⟨_, pos⟩)
  have hright := fun {c d} => hf.covers_iff (a := c) (b := d) hp hk
  obtain ⟨hap, hpb⟩ := hleft.mp h.covers_left
  obtain ⟨hak, hkb⟩ := hright.mp h.covers_right
  -- The run from the one end to the other covers both, so the hull is no longer than that.
  obtain ⟨hstart, hstop⟩ := h.least (min pos k) (max pos (Formula.reach n k))
    (hleft.mpr ⟨Nat.min_le_left .., Nat.le_max_left ..⟩)
    (hright.mpr ⟨Nat.min_le_right .., Nat.le_max_right ..⟩)
  have hreach : Formula.reach n k ≤ k + 1 := by
    unfold Formula.reach
    split <;> omega
  have hself : Formula.reach 0 pos = pos := rfl
  dsimp only at hap hpb hak hkb hstart hstop ⊢
  omega

namespace Caret

open Formula

variable {f : Formula} {c : Caret} {p q : Place} {l : ListId} {a b m n : Nat}
  {pending : List ElementId}

/-- An end of a selection once the element it lies in is taken in. -/
def widened (deeper : Bool) (pos other : Nat) : Nat :=
  if deeper && other ≤ pos then pos + 1 else pos

theorem selection?_eq {anchor : Place} {places others : List Place} {l : ListId}
    {here there : Nat} {hereDeeper thereDeeper : Bool} (ha : c.anchor = some anchor)
    (hplaces : f.enclosing c.place = .ok places) (hothers : f.enclosing anchor = .ok others)
    (hm : meet? false others places = some (l, (here, hereDeeper), (there, thereDeeper))) :
    c.selection? f =
      let here := widened hereDeeper here there
      let there := widened thereDeeper there here
      .ok (some ⟨l, min here there, max here there⟩) := by
  simp only [Caret.selection?, ha, hplaces, hothers, bind, Except.bind, hm]
  rfl

/-- The two ends are widened one after the other, but in effect each on its own. -/
theorem widened_min_max (m n a b : Nat) :
    let here := widened (m != 0) a b
    let there := widened (n != 0) b here
    min here there = min a b ∧ max here there = max (reach m a) (reach n b) := by
  unfold widened reach
  cases m <;> cases n <;> simp <;> split <;> (try split) <;> omega

/-- The list in which the chains around two places meet first is the lowest common one. -/
theorem innermost_of_meet? {places others : List Place} {hereDeeper thereDeeper : Bool}
    (h : f.Sound pending) (hplace : ∀ m r, places[m]? = some r ↔ f.Encloses m r p)
    (hother : ∀ n r, others[n]? = some r ↔ f.Encloses n r q)
    (hmeet : meet? false others places = some (l, (a, hereDeeper), (b, thereDeeper))) :
    ∃ m n, hereDeeper = (m != 0) ∧ thereDeeper = (n != 0) ∧ f.Encloses m ⟨l, a⟩ p ∧
      f.Encloses n ⟨l, b⟩ q ∧ f.Innermost p q l := by
  obtain ⟨m, n, ha, hb, rfl, rfl, hfirst⟩ := meet?_eq_some hmeet
  have ha := (hplace m _).mp ha
  have hb := (hother n _).mp hb
  refine ⟨m, n, Bool.false_or _, rfl, ha, hb, ⟨m, ha.below⟩, ⟨n, hb.below⟩, ?_⟩
  rintro k ⟨i, hi⟩ ⟨j, hj⟩
  obtain ⟨c, hc⟩ := Encloses.of_below hi
  obtain ⟨d, hd⟩ := Encloses.of_below hj
  have hc := (hplace i _).mpr hc
  have hd := List.mem_of_getElem? ((hother j _).mpr hd)
  -- Before the chains meet, no list of the one is in the other.
  have hmi : m ≤ i := Nat.le_of_not_lt fun him => hfirst i him _ hc _ hd rfl
  exact ⟨_, h.below_of_le ha.below hi hmi⟩

theorem isHull_of_innermost (h : f.Sound pending) (hp : f.IsPlace p) (hq : f.IsPlace q)
    (ha : f.Encloses m ⟨l, a⟩ p) (hb : f.Encloses n ⟨l, b⟩ q) (hl : f.Innermost p q l) :
    (⟨l, min a b, max (reach m a) (reach n b)⟩ : Selection).IsHull f p q := by
  have hreach := h.reachable_of_below hp.reachable ha.below
  have hleft : ∀ {c d}, f.Covers l c d p ↔ _ := h.covers_iff hreach ha
  have hright : ∀ {c d}, f.Covers l c d q ↔ _ := h.covers_iff hreach hb
  have hale : a ≤ reach m a := le_reach
  exact {
    innermost := hl
    start_le := Nat.le_trans (Nat.min_le_left a b) (Nat.le_trans hale (Nat.le_max_left ..))
    stop_le := Nat.max_le.mpr ⟨ha.reach_le hp, hb.reach_le hq⟩
    covers_left := hleft.mpr ⟨Nat.min_le_left .., Nat.le_max_left ..⟩
    covers_right := hright.mpr ⟨Nat.min_le_right .., Nat.le_max_right ..⟩
    least := fun c d hc hd =>
      have ⟨hca, had⟩ := hleft.mp hc
      have ⟨hcb, hbd⟩ := hright.mp hd
      ⟨Nat.le_min.mpr ⟨hca, hcb⟩, Nat.max_le.mpr ⟨had, hbd⟩⟩ }

/-- Between an anchor and a caret at places of the formula there is a selection. -/
theorem selection?_isHull (h : f.Sound pending) (hp : f.IsPlace p) (hq : f.IsPlace q)
    (selecting : Bool) :
    ∃ s, (⟨p, some q, selecting⟩ : Caret).selection? f = .ok (some s) ∧ s.IsHull f p q := by
  obtain ⟨places, hplaces, hplace⟩ := h.getElem?_enclosing hp.reachable
  obtain ⟨others, hothers, hother⟩ := h.getElem?_enclosing hq.reachable
  have hroot : ∃ r ∈ places, ∃ r' ∈ others, r'.list = r.list := by
    obtain ⟨i, hi⟩ := hp.reachable
    obtain ⟨j, hj⟩ := hq.reachable
    obtain ⟨a, ha⟩ := Encloses.of_below hi
    obtain ⟨b, hb⟩ := Encloses.of_below hj
    exact ⟨_, List.mem_of_getElem? ((hplace i _).mpr ha),
      _, List.mem_of_getElem? ((hother j _).mpr hb), rfl⟩
  obtain ⟨⟨l, ⟨a, hereDeeper⟩, b, thereDeeper⟩, hmeet⟩ := exists_meet? false hroot
  obtain ⟨m, n, rfl, rfl, ha, hb, hl⟩ := innermost_of_meet? h hplace hother hmeet
  obtain ⟨hmin, hmax⟩ := widened_min_max m n a b
  refine ⟨_, selection?_eq rfl hplaces hothers hmeet, ?_⟩
  rw [hmin, hmax]
  exact isHull_of_innermost h hp hq ha hb hl

/-- While there is an anchor there is a selection, and it is a run of the formula. -/
theorem Valid.selection? (hf : f.Tidy) (h : c.Valid f) {anchor : Place}
    (ha : c.anchor = some anchor) :
    ∃ s, c.selection? f = .ok (some s) ∧ s.Valid f := by
  obtain ⟨place, _, selecting⟩ := c
  subst ha
  obtain ⟨s, hs, hhull⟩ := selection?_isHull hf.toSound h.place (h.anchor anchor rfl) selecting
  exact ⟨s, hs, hhull.valid hf.toSound h.place.reachable⟩

/-- What is selected lies between the caret and the anchor. -/
theorem Valid.isHull (hf : f.Tidy) (h : c.Valid f) {s : Selection}
    (hs : c.selected? f = .ok (some s)) : ∃ q, c.anchor = some q ∧ s.IsHull f c.place q := by
  unfold Caret.selected? at hs
  split at hs
  · rename_i hselecting
    obtain ⟨q, hq⟩ := Option.isSome_iff_exists.mp (h.selecting.symm.trans hselecting)
    obtain ⟨place, _, selecting⟩ := c
    obtain rfl : _ = some q := hq
    obtain ⟨s', hs', hhull⟩ := selection?_isHull hf.toSound h.place (h.anchor q rfl) selecting
    obtain rfl : s = s' := Option.some.inj (Except.ok.inj (hs.symm.trans hs'))
    exact ⟨q, rfl, hhull⟩
  · cases hs

theorem Valid.selected? (hf : f.Tidy) (h : c.Valid f) :
    (c.selecting = false ∧ c.selected? f = .ok none) ∨
      c.selecting = true ∧ ∃ s, c.selected? f = .ok (some s) ∧ s.Valid f := by
  unfold Caret.selected?
  cases hs : c.selecting with
  | false => simp
  | true =>
    obtain ⟨anchor, ha⟩ := Option.isSome_iff_exists.mp (h.selecting.symm.trans hs)
    simpa using h.selection? hf ha

theorem selectedElements_of_none (hs : c.selected? f = .ok none) :
    c.selectedElements f = .ok [] := by
  rw [Caret.selectedElements, hs]
  rfl

theorem selectedElements_of_some {s : Selection} (hs : c.selected? f = .ok (some s))
    (hv : s.Valid f) : c.selectedElements f =
      .ok (((f.elements s.list).drop s.start).take (s.stop - s.start)) := by
  rw [Caret.selectedElements, hs]
  simp [bind, Except.bind, elementRange, hv.start_le, hv.stop_le]

/-- What is selected are elements of a list of the formula. -/
theorem Valid.selectedElements (hf : f.Tidy) (h : c.Valid f) :
    Succeeds (c.selectedElements f) fun es =>
      ∀ e ∈ es, ∃ l, f.Reachable l ∧ e ∈ f.elements l := by
  obtain ⟨-, hs⟩ | ⟨-, s, hs, hv⟩ := h.selected? hf
  · rw [selectedElements_of_none hs]
    exact .ok fun e he => absurd he List.not_mem_nil
  · rw [selectedElements_of_some hs hv]
    exact .ok fun e he => ⟨s.list, hv.reachable, List.mem_of_mem_drop (List.mem_of_mem_take he)⟩

end Caret

end FormulaEditor
