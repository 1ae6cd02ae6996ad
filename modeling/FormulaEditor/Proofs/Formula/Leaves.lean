import FormulaEditor.Proofs.Caret.Order

/-!
# Leaves in reading order

A leaf is an element without lists. Reading a formula, one meets its places and its leaves in a fixed
order, which tells what lies before a caret and what lies after it. What is read before a list and
after it depends on what is outside the list only, so an edit inside the list does not change it.
-/

namespace FormulaEditor.Formula

/-- What is met in reading: a place, or an element without lists. -/
inductive Stop where
  | gap (p : Place)
  | leaf (e : ElementId)
deriving DecidableEq, Repr

/-- The place that is met. -/
def Stop.gap? : Stop → Option Place
  | gap p => some p
  | leaf _ => none

/-- The leaf that is met. -/
def Stop.leaf? : Stop → Option ElementId
  | gap _ => none
  | leaf e => some e

/-- The leaves among what is met. -/
def leavesIn (stops : List Stop) : List ElementId :=
  stops.filterMap Stop.leaf?

@[simp] theorem leavesIn_nil : leavesIn [] = [] := rfl

@[simp] theorem leavesIn_gap (p : Place) (stops : List Stop) :
    leavesIn (.gap p :: stops) = leavesIn stops := rfl

@[simp] theorem leavesIn_leaf (e : ElementId) (stops : List Stop) :
    leavesIn (.leaf e :: stops) = e :: leavesIn stops := rfl

@[simp] theorem leavesIn_append (stops stops' : List Stop) :
    leavesIn (stops ++ stops') = leavesIn stops ++ leavesIn stops' :=
  List.filterMap_append

theorem leavesIn_flatMap {α : Type} (xs : List α) (stops : α → List Stop) :
    leavesIn (xs.flatMap stops) = xs.flatMap fun x => leavesIn (stops x) :=
  List.filterMap_flatMap

section Reading

variable (f : Formula)

/-- What is met in a list and in all lists inside it, down to a given depth. -/
def stopsWithin : Nat → ListId → List Stop
  | 0, _ => []
  | depth + 1, l =>
    ((f.elements l).zipIdx.flatMap fun (e, i) => .gap ⟨l, i⟩ ::
      if f.listsOf e = [] then [.leaf e] else (f.listsOf e).flatMap (stopsWithin depth)) ++
    [.gap (f.endOf l)]

/-- What is met in a list and in all lists inside it. -/
def stopsFrom (l : ListId) : List Stop :=
  f.stopsWithin f.listSlots.size l

/-- Every place and every leaf of the formula in reading order. -/
def stops : List Stop :=
  f.stopsFrom f.root

/-- The leaves of a list and of all lists inside it. -/
def leavesFrom (l : ListId) : List ElementId :=
  (f.elementsWithin f.listSlots.size l).filter fun e => (f.listsOf e).isEmpty

/-- The leaves of the formula in reading order. -/
def leaves : List ElementId :=
  f.allElements.filter fun e => (f.listsOf e).isEmpty

/-- The leaves before a place. -/
def leavesBefore (p : Place) : List ElementId :=
  leavesIn (f.stops.takeWhile (· ≠ .gap p))

/-- The leaves after a place. -/
def leavesAfter (p : Place) : List ElementId :=
  leavesIn (f.stops.dropWhile (· ≠ .gap p))

/-- What is met at an element: the element itself, or what is in its lists. -/
def stopsOf (e : ElementId) : List Stop :=
  if f.listsOf e = [] then [.leaf e] else (f.listsOf e).flatMap f.stopsFrom

/-- The leaves at an element: the element itself, or those in its lists. -/
def leavesOf (e : ElementId) : List ElementId :=
  if f.listsOf e = [] then [e] else (f.listsOf e).flatMap f.leavesFrom

/-- What is met at elements that stand in a list from an index on. -/
def stopsAlong (l : ListId) (k : Nat) (es : List ElementId) : List Stop :=
  (es.zipIdx k).flatMap fun (e, i) => .gap ⟨l, i⟩ :: f.stopsOf e

end Reading

variable {f g : Formula} {e : ElementId} {a i l : ListId} {p q : Place} {k n depth : Nat}
  {es es' : List ElementId} {pre post : List Stop} {pending pending' : List ElementId}

/-! ## Places and leaves -/

theorem places_stopsWithin : (f.stopsWithin depth l).filterMap Stop.gap? = f.placesWithin depth l := by
  induction depth generalizing l with
  | zero => rfl
  | succ depth ih =>
    have hinside : ∀ e, (if f.listsOf e = [] then [.leaf e]
        else (f.listsOf e).flatMap (f.stopsWithin depth)).filterMap Stop.gap? =
          (f.listsOf e).flatMap (f.placesWithin depth) := by
      intro e
      split
      · rename_i h
        rw [h]
        rfl
      · rw [List.filterMap_flatMap]
        exact List.flatMap_congr fun i _ => ih
    rw [stopsWithin, placesWithin, List.filterMap_append, List.filterMap_flatMap]
    refine congrArg (· ++ [f.endOf l]) (List.flatMap_congr fun x _ => ?_)
    exact congrArg (⟨l, x.2⟩ :: ·) (hinside x.1)

/-- The places among what is met are the places of the formula. -/
theorem places_stops : f.stops.filterMap Stop.gap? = f.places :=
  places_stopsWithin

/-- What is read off the elements of a list does not depend on their indices. -/
theorem flatMap_zipIdx {α β : Type} (xs : List α) (k : Nat) (read : α → List β) :
    ((xs.zipIdx k).flatMap fun (x, _) => read x) = xs.flatMap read := by
  conv_rhs => rw [← List.zipIdx_map_fst k xs, List.flatMap_map]

theorem leaves_stopsWithin : leavesIn (f.stopsWithin depth l) =
    (f.elementsWithin depth l).filter fun e => (f.listsOf e).isEmpty := by
  induction depth generalizing l with
  | zero => rfl
  | succ depth ih =>
    rw [stopsWithin, elementsWithin, leavesIn_append, leavesIn_flatMap, List.filter_flatMap,
      ← flatMap_zipIdx (f.elements l) 0, leavesIn_gap, leavesIn_nil, List.append_nil]
    refine List.flatMap_congr fun x _ => ?_
    obtain ⟨e, i⟩ := x
    by_cases he : f.listsOf e = []
    · simp [he]
    · simp only [leavesIn_gap, if_neg he, leavesIn_flatMap, ih]
      rw [List.filter_cons_of_neg (by simpa using he), List.filter_flatMap]

/-- The leaves among what is met are the leaves of the formula. -/
theorem leaves_stops : leavesIn f.stops = f.leaves :=
  leaves_stopsWithin

@[simp] theorem leaves_stopsFrom : leavesIn (f.stopsFrom l) = f.leavesFrom l :=
  leaves_stopsWithin

/-- The leaves before a place and those after it are all leaves. -/
theorem leavesBefore_append_leavesAfter (f : Formula) (p : Place) :
    f.leavesBefore p ++ f.leavesAfter p = f.leaves := by
  rw [leavesBefore, leavesAfter, ← leavesIn_append, List.takeWhile_append_dropWhile, leaves_stops]

@[simp] theorem leaves_stopsOf : leavesIn (f.stopsOf e) = f.leavesOf e := by
  unfold stopsOf leavesOf
  split
  · rfl
  · rw [leavesIn_flatMap]
    exact List.flatMap_congr fun i _ => leaves_stopsFrom

@[simp] theorem leaves_stopsAlong : leavesIn (f.stopsAlong l k es) = es.flatMap f.leavesOf := by
  rw [stopsAlong, leavesIn_flatMap, ← flatMap_zipIdx es k]
  exact List.flatMap_congr fun _ _ => leaves_stopsOf

theorem stopsAlong_append :
    f.stopsAlong l k (es ++ es') = f.stopsAlong l k es ++ f.stopsAlong l (k + es.length) es' := by
  rw [stopsAlong, List.zipIdx_append, List.flatMap_append]
  rfl

theorem stopsAlong_cons :
    f.stopsAlong l k (e :: es) = .gap ⟨l, k⟩ :: (f.stopsOf e ++ f.stopsAlong l (k + 1) es) := by
  rw [stopsAlong, List.zipIdx_cons, List.flatMap_cons]
  rfl

namespace Sound

variable (h : f.Sound pending)

include h

/-- What holds of a list if it holds of the lists inside it, holds of every list of the formula. -/
theorem reachable_induction {motive : ListId → Prop}
    (step : ∀ l, f.Reachable l → (∀ e ∈ f.elements l, ∀ i ∈ f.listsOf e, motive i) → motive l)
    (hl : f.Reachable l) : motive l := by
  obtain ⟨n, hn⟩ := hl
  -- By how much deeper the formula may still go.
  generalize hd : f.listSlots.size - n = d
  induction d generalizing n l with
  | zero => exact absurd (h.depth_lt hn) (by omega)
  | succ d ih =>
    exact step l ⟨n, hn⟩ fun e he i hi => ih (n + 1) (hn.inside he hi) (by omega)

/-- As soon as the depth reaches all lists inside, a greater one changes nothing. -/
theorem stopsWithin_succ (hb : f.Below n f.root l) (hd : f.listSlots.size ≤ n + depth) :
    f.stopsWithin (depth + 1) l = f.stopsWithin depth l := by
  induction depth generalizing n l with
  | zero => exact absurd (h.depth_lt hb) (by omega)
  | succ depth ih =>
    have hinside : ∀ x ∈ (f.elements l).zipIdx,
        (f.listsOf x.1).flatMap (f.stopsWithin (depth + 1)) =
          (f.listsOf x.1).flatMap (f.stopsWithin depth) := by
      intro x hx
      have he := List.mem_of_getElem? (List.mem_zipIdx_iff_getElem?.mp hx)
      exact List.flatMap_congr fun i hi => ih (hb.inside he hi) (by omega)
    refine congrArg (· ++ [Stop.gap (f.endOf l)]) (List.flatMap_congr fun x hx => ?_)
    simp only [hinside x hx]

/-- In a list of the formula one meets the place before each element and what is at the element,
and at last the end. -/
theorem stopsFrom_eq (hl : f.Reachable l) :
    f.stopsFrom l = f.stopsAlong l 0 (f.elements l) ++ [.gap (f.endOf l)] := by
  obtain ⟨n, hn⟩ := hl
  exact (h.stopsWithin_succ hn (by omega)).symm

theorem leavesFrom_eq (hl : f.Reachable l) : f.leavesFrom l = (f.elements l).flatMap f.leavesOf := by
  rw [← leaves_stopsFrom, h.stopsFrom_eq hl]
  simp

theorem mem_leaves : e ∈ f.leaves ↔ (∃ l, f.Reachable l ∧ e ∈ f.elements l) ∧ f.listsOf e = [] := by
  rw [leaves, List.mem_filter, h.inventory.elements, List.isEmpty_iff]

theorem nodup_leaves : f.leaves.Nodup :=
  h.nodup_allElements.filter _

/-- No place is met twice. -/
theorem gap_not_mem (hs : f.stops = pre ++ .gap p :: post) : .gap p ∉ pre := by
  have hnd := h.nodup_places
  rw [← places_stops, hs, List.filterMap_append] at hnd
  intro hmem
  exact (List.nodup_append.mp hnd).2.2 p (List.mem_filterMap.mpr ⟨_, hmem, rfl⟩) p
    (by simp [Stop.gap?]) rfl

/-- Where the place is met, the leaves before it and after it come apart. -/
theorem leaves_of_split (hs : f.stops = pre ++ .gap p :: post) :
    f.leavesBefore p = leavesIn pre ∧ f.leavesAfter p = leavesIn post := by
  have hpre : ∀ s ∈ pre, decide (s ≠ .gap p) = true := by
    intro s hmem
    have hne : s ≠ .gap p := fun hc => h.gap_not_mem hs (hc ▸ hmem)
    simpa using hne
  unfold leavesBefore leavesAfter
  rw [hs, List.takeWhile_append_of_pos hpre, List.dropWhile_append_of_pos hpre]
  simp

end Sound

/-! ## Around a list -/

/-- What is met before a list of the formula and after it. -/
inductive Around (f : Formula) : ListId → List Stop → List Stop → Prop
  | root : Around f f.root [] []
  | inside {l i : ListId} {e : ElementId} {pre post : List Stop} {before after : List ElementId}
    {left right : List ListId} (outer : Around f l pre post)
    (he : f.elements l = before ++ e :: after) (hi : f.listsOf e = left ++ i :: right) :
    Around f i
      (pre ++ (f.stopsAlong l 0 before ++ .gap ⟨l, before.length⟩ :: left.flatMap f.stopsFrom))
      (right.flatMap f.stopsFrom ++
        (f.stopsAlong l (before.length + 1) after ++ .gap (f.endOf l) :: post))

namespace Around

theorem reachable (h : f.Around l pre post) : f.Reachable l := by
  induction h with
  | root => exact reachable_root
  | @inside l i e _ _ _ _ _ _ outer he hi ih =>
    have hmem : e ∈ f.elements l := by simp [he]
    exact ih.inside hmem (by simp [hi])

theorem exists_of_reachable (hl : f.Reachable l) : ∃ pre post, f.Around l pre post := by
  induction hl using Reachable.induct with
  | root => exact ⟨_, _, .root⟩
  | inside _ he hi ih =>
    obtain ⟨pre, post, h⟩ := ih
    obtain ⟨before, after, he⟩ := List.append_of_mem he
    obtain ⟨left, right, hi⟩ := List.append_of_mem hi
    exact ⟨_, _, h.inside he hi⟩

/-- All of the formula is met before the list, in it or after it. -/
theorem stops_eq (hf : f.Sound pending) (h : f.Around l pre post) :
    f.stops = pre ++ (f.stopsFrom l ++ post) := by
  induction h with
  | root => simp [stops]
  | @inside l i e pre post before after left right outer he hi ih =>
    have hne : f.listsOf e ≠ [] := by simp [hi]
    rw [ih, hf.stopsFrom_eq outer.reachable, he, stopsAlong_append, stopsAlong_cons, stopsOf,
      if_neg hne, hi, List.flatMap_append, List.flatMap_cons]
    simp

/-- The leaves before a place are those before its list and those before it in the list. -/
theorem leaves_eq (hf : f.Sound pending) (h : f.Around l pre post) (hk : k ≤ f.length l) :
    f.leavesBefore ⟨l, k⟩ = leavesIn pre ++ ((f.elements l).take k).flatMap f.leavesOf ∧
      f.leavesAfter ⟨l, k⟩ = ((f.elements l).drop k).flatMap f.leavesOf ++ leavesIn post := by
  have hlen : ((f.elements l).take k).length = k := by
    rw [List.length_take]
    exact Nat.min_eq_left hk
  have halong : f.stopsAlong l 0 ((f.elements l).take k ++ (f.elements l).drop k) =
      f.stopsAlong l 0 ((f.elements l).take k) ++
        f.stopsAlong l (0 + ((f.elements l).take k).length) ((f.elements l).drop k) :=
    stopsAlong_append
  rw [List.take_append_drop, hlen, Nat.zero_add] at halong
  have hlist : ∃ rest, f.stopsFrom l =
      f.stopsAlong l 0 ((f.elements l).take k) ++ .gap ⟨l, k⟩ :: rest ∧
      leavesIn rest = ((f.elements l).drop k).flatMap f.leavesOf := by
    rw [hf.stopsFrom_eq h.reachable, halong]
    cases hdrop : (f.elements l).drop k with
    | nil =>
      obtain rfl : k = f.length l := Nat.le_antisymm hk (List.drop_eq_nil_iff.mp hdrop)
      exact ⟨[], by simp [stopsAlong, endOf], rfl⟩
    | cons e es =>
      refine ⟨f.stopsOf e ++ f.stopsAlong l (k + 1) es ++ [.gap (f.endOf l)], ?_, by simp⟩
      rw [stopsAlong_cons]
      simp
  obtain ⟨rest, hfrom, hrest⟩ := hlist
  have hsplit : f.stops = (pre ++ f.stopsAlong l 0 ((f.elements l).take k)) ++
      .gap ⟨l, k⟩ :: (rest ++ post) := by
    rw [h.stops_eq hf, hfrom]
    simp
  obtain ⟨hbefore, hafter⟩ := hf.leaves_of_split hsplit
  simp [hbefore, hafter, hrest]

end Around

/-! ## What two formulas have in common -/

/-- The second formula has the same elements in a list, and the elements have the same lists. -/
structure Agrees (f g : Formula) (l : ListId) : Prop where
  elements : g.elements l = f.elements l
  listsOf : ∀ e ∈ f.elements l, g.listsOf e = f.listsOf e

theorem Agrees.reachable (h : f.Agrees g l) (hl : g.Reachable l) (he : e ∈ f.elements l)
    (hi : i ∈ f.listsOf e) : g.Reachable i :=
  hl.inside (h.elements ▸ he) (h.listsOf e he ▸ hi)

theorem stopsOf_congr (hlists : g.listsOf e = f.listsOf e)
    (hfrom : ∀ i ∈ f.listsOf e, g.stopsFrom i = f.stopsFrom i) : g.stopsOf e = f.stopsOf e := by
  unfold stopsOf
  rw [hlists, List.flatMap_congr hfrom]

theorem stopsAlong_congr (h : ∀ e ∈ es, g.stopsOf e = f.stopsOf e) :
    g.stopsAlong l k es = f.stopsAlong l k es := by
  refine List.flatMap_congr fun (e, i) hmem => ?_
  exact congrArg (.gap ⟨l, i⟩ :: ·) (h e (List.fst_mem_of_mem_zipIdx hmem))

/-- Formulas that agree in a list and in everything inside it read the same there. -/
theorem Sound.stopsFrom_congr (hf : f.Sound pending) (hg : g.Sound pending') (hl : f.Reachable l)
    (hlg : g.Reachable l) (hagree : ∀ n i, f.Below n l i → f.Agrees g i) :
    g.stopsFrom l = f.stopsFrom l := by
  revert hlg hagree
  refine hf.reachable_induction (motive := fun l => g.Reachable l →
    (∀ n i, f.Below n l i → f.Agrees g i) → g.stopsFrom l = f.stopsFrom l) ?_ hl
  intro l hl ih hlg hagree
  have hhere := hagree 0 l (.here l)
  rw [hg.stopsFrom_eq hlg, hf.stopsFrom_eq hl, endOf, endOf, Formula.length, Formula.length,
    hhere.elements]
  refine congrArg (· ++ _) (stopsAlong_congr fun e he => stopsOf_congr (hhere.listsOf e he) ?_)
  exact fun i hi => ih e he i hi (hhere.reachable hlg he hi)
    fun n k hk => hagree (n + 1) k (hk.head he hi)

/-- What is read at an element whose lists are the same, as far as they go. -/
theorem Sound.stopsOf_congr (hf : f.Sound pending) (hg : g.Sound pending') (hl : f.Reachable l)
    (he : e ∈ f.elements l) (hlists : g.listsOf e = f.listsOf e)
    (hr : ∀ i ∈ f.listsOf e, g.Reachable i)
    (hagree : ∀ i ∈ f.listsOf e, ∀ n k, f.Below n i k → f.Agrees g k) :
    g.stopsOf e = f.stopsOf e :=
  Formula.stopsOf_congr hlists fun i hi =>
    hf.stopsFrom_congr hg (hl.inside he hi) (hr i hi) (hagree i hi)

theorem mem_middle {α : Type} {x y : α} {xs ys : List α} (h : x ∈ xs ++ ys) : x ∈ xs ++ y :: ys :=
  List.mem_append.mpr ((List.mem_append.mp h).imp_right (List.mem_cons_of_mem y))

/-- What is met before a list and after it is the same where formulas agree outside of it. -/
theorem Around.transfer (hf : f.Sound pending) (hg : g.Sound pending') (h : f.Around l pre post)
    (hroot : g.root = f.root)
    (hagree : ∀ i, f.Reachable i → (∀ n, ¬f.Below n l i) → f.Agrees g i) : g.Around l pre post := by
  induction h with
  | root => exact hroot ▸ .root
  | @inside l i e pre post before after left right outer he hi ih =>
    have hr := outer.reachable
    have hmem : e ∈ f.elements l := by simp [he]
    have himem : i ∈ f.listsOf e := by simp [hi]
    have hdisjoint : ∀ x ∈ f.elements l, ∀ k ∈ f.listsOf x, (x = e → k ≠ i) → ∀ m j,
        f.Below m k j → f.Agrees g j := by
      intro x hx k hk hne m j hj
      refine hagree j ?_ fun n hn => ?_
      · obtain ⟨d, hd⟩ := hr.inside hx hk
        exact ⟨_, hd.trans hj⟩
      · obtain ⟨rfl, rfl⟩ := hf.branch_unique hr hx hk hmem himem hj hn
        exact hne rfl rfl
    have houter : g.Around l pre post := ih fun j hj hnot =>
      hagree j hj fun n hn => hnot (n + 1) (hn.head hmem himem)
    have hhere : f.Agrees g l := hagree l hr fun n hn =>
      hf.not_below_of_inside hr hmem himem hn
    have hrg := houter.reachable
    -- Nothing but the one list of the one element is left out of the agreement.
    have hnodup := hf.nodup_elements l
    have hnodup' := (hf.whole e l (hf.mem_elements.mp hmem)).nodup
    rw [he, List.nodup_middle, List.nodup_cons] at hnodup
    rw [hi, List.nodup_middle, List.nodup_cons] at hnodup'
    have hother : ∀ x ∈ before ++ after, g.stopsOf x = f.stopsOf x := by
      intro x hx
      have hne : x ≠ e := ne_of_mem_of_not_mem hx hnodup.1
      have hxl : x ∈ f.elements l := by
        rw [he]
        exact mem_middle hx
      exact hf.stopsOf_congr hg hr hxl (hhere.listsOf x hxl)
        (fun k hk => hhere.reachable hrg hxl hk) fun k hk =>
          hdisjoint x hxl k hk fun hc => absurd hc hne
    have hsibling : ∀ k ∈ left ++ right, g.stopsFrom k = f.stopsFrom k := by
      intro k hk
      have hne : k ≠ i := ne_of_mem_of_not_mem hk hnodup'.1
      have hke : k ∈ f.listsOf e := by
        rw [hi]
        exact mem_middle hk
      exact hf.stopsFrom_congr hg (hr.inside hmem hke) (hhere.reachable hrg hmem hke)
        (hdisjoint e hmem k hke fun _ => hne)
    have hinside := houter.inside (hhere.elements.trans he) ((hhere.listsOf e hmem).trans hi)
    rwa [stopsAlong_congr fun x hx => hother x (List.mem_append_left _ hx),
      stopsAlong_congr fun x hx => hother x (List.mem_append_right _ hx),
      List.flatMap_congr fun k hk => hsibling k (List.mem_append_left _ hk),
      List.flatMap_congr fun k hk => hsibling k (List.mem_append_right _ hk), endOf, Formula.length,
      hhere.elements] at hinside

end FormulaEditor.Formula
