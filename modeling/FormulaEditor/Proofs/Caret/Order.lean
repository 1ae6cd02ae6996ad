import FormulaEditor.Proofs.Caret.Movement
import FormulaEditor.Proofs.Formula.Walking
import FormulaEditor.Proofs.Session.Reached

/-!
# The order of places

Listed in reading order, the places of a list are the gap before each element followed by the places
of the element's lists, and the gap at the end. A caret that moves right goes through the places of
the root in that order, one after the other, and a caret that moves left goes back.

A step only looks at what is beside the caret. What has to be shown is that two places which follow
each other in the list are each other's neighbours, whether the way between them leads past a leaf,
into an element, from one of its lists to the next or out of it.
-/

namespace FormulaEditor

namespace Formula

/-- The places of a list and of all lists inside it in reading order, down to a given depth. -/
def placesWithin (f : Formula) : Nat → ListId → List Place
  | 0, _ => []
  | depth + 1, l =>
    ((f.elements l).zipIdx.flatMap fun (e, i) =>
      ⟨l, i⟩ :: (f.listsOf e).flatMap (f.placesWithin depth)) ++ [f.endOf l]

/-- The places of a list and of all lists inside it, in reading order. -/
def placesFrom (f : Formula) (l : ListId) : List Place :=
  f.placesWithin f.listSlots.size l

/-- Every place of the formula, in reading order. -/
def places (f : Formula) : List Place :=
  f.placesFrom f.root

/-- One step to the right leads from the first place to the second, one to the left leads back. -/
structure Neighbours (f : Formula) (p q : Place) : Prop where
  right : f.step? p .right = .ok (some q)
  left : f.step? q .left = .ok (some p)

/-- From `p` on a caret goes through the listed places and comes to `q`, and back the same way. -/
inductive Leads (f : Formula) : Place → List Place → Place → Prop
  | here (p : Place) : Leads f p [] p
  | step {p q r : Place} {ps : List Place} (next : f.Neighbours p q) (rest : Leads f q ps r) :
    Leads f p (p :: ps) r

section Order

variable {f : Formula} {e : ElementId} {a b l : ListId} {p q r : Place} {ps qs : List Place}
  {i n depth : Nat} {pending : List ElementId} {before after : List ListId}

/-! ## The list of all places -/

theorem mem_placesWithin : p ∈ f.placesWithin depth a ↔
    ∃ n < depth, f.Below n a p.list ∧ p.pos ≤ f.length p.list := by
  induction depth generalizing a with
  | zero => simp [placesWithin]
  | succ depth ih =>
    simp only [placesWithin, List.mem_append, List.mem_flatMap, List.mem_cons, List.not_mem_nil,
      or_false, ih]
    constructor
    · rintro (⟨⟨e, i⟩, he, rfl | ⟨l, hl, n, hn, hb, hp⟩⟩ | rfl)
      · have := (List.getElem?_eq_some_iff.mp (List.mem_zipIdx_iff_getElem?.mp he)).1
        exact ⟨0, depth.succ_pos, .here a, Nat.le_of_lt this⟩
      · have he := List.mem_of_getElem? (List.mem_zipIdx_iff_getElem?.mp he)
        exact ⟨n + 1, Nat.succ_lt_succ hn, hb.head he hl, hp⟩
      · exact ⟨0, depth.succ_pos, .here a, Nat.le_refl _⟩
    · rintro ⟨_ | n, hn, hb, hp⟩
      · cases hb
        obtain hp | hp := Nat.lt_or_eq_of_le hp
        · refine .inl ⟨((f.elements p.list)[p.pos], p.pos), ?_, .inl rfl⟩
          exact List.mem_zipIdx_iff_getElem?.mpr (List.getElem?_eq_getElem hp)
        · exact .inr (congrArg (Place.mk p.list) hp)
      · obtain ⟨e, he, i, hi, hb⟩ := hb.exists_head
        obtain ⟨k, hk⟩ := List.mem_iff_getElem?.mp he
        exact .inl ⟨(e, k), List.mem_zipIdx_iff_getElem?.mpr hk,
          .inr ⟨i, hi, n, Nat.lt_of_succ_lt_succ hn, hb, hp⟩⟩

namespace Sound

variable (h : f.Sound pending)

include h

theorem mem_places : p ∈ f.places ↔ f.IsPlace p := by
  rw [places, placesFrom, mem_placesWithin]
  exact ⟨fun ⟨n, _, hb, hp⟩ => ⟨⟨n, hb⟩, hp⟩,
    fun ⟨⟨n, hb⟩, hp⟩ => ⟨n, h.depth_lt hb, hb, hp⟩⟩

/-- As soon as the depth reaches all lists inside, a greater one changes nothing. -/
theorem placesWithin_succ (hb : f.Below n f.root l) (hd : f.listSlots.size ≤ n + depth) :
    f.placesWithin (depth + 1) l = f.placesWithin depth l := by
  induction depth generalizing n l with
  | zero => exact absurd (h.depth_lt hb) (by omega)
  | succ depth ih =>
    have hlists : ∀ x ∈ (f.elements l).zipIdx,
        (f.listsOf x.1).flatMap (f.placesWithin (depth + 1)) =
          (f.listsOf x.1).flatMap (f.placesWithin depth) := by
      intro x hx
      have he := List.mem_of_getElem? (List.mem_zipIdx_iff_getElem?.mp hx)
      exact List.flatMap_congr fun i hi => ih (hb.inside he hi) (by omega)
    exact congrArg (· ++ [f.endOf l])
      (List.flatMap_congr fun x hx => congrArg (⟨l, x.2⟩ :: ·) (hlists x hx))

/-- The places of a list of the formula: the gap before each element, what is inside the element,
and the end. -/
theorem placesFrom_eq (hl : f.Reachable l) :
    f.placesFrom l = ((f.elements l).zipIdx.flatMap fun (e, i) =>
      ⟨l, i⟩ :: (f.listsOf e).flatMap f.placesFrom) ++ [f.endOf l] := by
  obtain ⟨n, hn⟩ := hl
  exact (h.placesWithin_succ hn (by omega)).symm

end Sound

/-! ## Neighbours

There are four ways between neighbours: past a leaf, into an element, from one of its lists to the
next, and out of it. -/

theorem idxOf?_of_split (ha : a ∉ before) : (before ++ a :: after).idxOf? a = some before.length := by
  refine List.idxOf?_eq_some_iff.mpr ⟨by simp, by simp, fun j hj hc => ha ?_⟩
  rw [List.getElem_append_left hj] at hc
  exact hc ▸ List.getElem_mem hj

/-- The lists beside one of an element's lists. -/
theorem sibling?_of_split {x : Element} (hx : x.lists = before ++ a :: after) (hnd : x.lists.Nodup) :
    x.sibling? .left a = before.getLast? ∧ x.sibling? .right a = after.head? := by
  have ha : a ∉ before := by
    rw [hx] at hnd
    exact fun ha => (List.nodup_append.mp hnd).2.2 a ha a (by simp) rfl
  unfold Element.sibling?
  rw [hx, idxOf?_of_split ha]
  constructor
  · cases before using List.reverseRecOn <;> simp [Direction.isBackward]
  · cases after <;> simp [Direction.isBackward]

theorem step?_right_of_getElem? (he : (f.elements l)[i]? = some e) :
    f.step? ⟨l, i⟩ .right = .ok (some ((f.listsOf e).head?.elim ⟨l, i + 1⟩ startOf)) := by
  have ha : f.adjacent? ⟨l, i⟩ .right = some (i, e) := adjacent?_eq_some.mpr ⟨rfl, he⟩
  cases hb : (f.listsOf e).head? <;>
    simp_all [step?, Direction.isVertical, Direction.isBackward, entering, Element.boundary?, listsOf]

theorem step?_left_of_getElem? (he : (f.elements l)[i]? = some e) :
    f.step? ⟨l, i + 1⟩ .left = .ok (some ((f.listsOf e).getLast?.elim ⟨l, i⟩ f.endOf)) := by
  have ha : f.adjacent? ⟨l, i + 1⟩ .left = some (i, e) := adjacent?_eq_some.mpr ⟨rfl, he⟩
  cases hb : (f.listsOf e).getLast? <;>
    simp_all [step?, Direction.isVertical, Direction.isBackward, entering, Element.boundary?, listsOf]

theorem step?_left_startOf : f.step? (startOf l) .left = f.leave? (startOf l) .left := by
  simp [step?, Direction.isVertical, adjacent?, adjacentIndex?, startOf]

theorem step?_right_endOf : f.step? (f.endOf l) .right = f.leave? (f.endOf l) .right := by
  simp [step?, Direction.isVertical, adjacent?, adjacentIndex?, endOf, length]

/-- Past a leaf. -/
theorem neighbours_past (he : (f.elements l)[i]? = some e) (hlists : f.listsOf e = []) :
    f.Neighbours ⟨l, i⟩ ⟨l, i + 1⟩ := by
  constructor
  · rw [step?_right_of_getElem? he, hlists]
    rfl
  · rw [step?_left_of_getElem? he, hlists]
    rfl

namespace Sound

variable (h : f.Sound pending)

include h

/-- Leaving one of an element's lists leads to the list beside it, or beside the element. -/
theorem leave?_of_split (he : (f.elements l)[i]? = some e) (hlists : f.listsOf e = before ++ a :: after)
    (hp : p.list = a) :
    f.leave? p .left = .ok (some (before.getLast?.elim ⟨l, i⟩ f.endOf)) ∧
      f.leave? p .right = .ok (some (after.head?.elim ⟨l, i + 1⟩ startOf)) := by
  have hmem := List.mem_of_getElem? he
  obtain ⟨hparent, hposition⟩ := (h.link e l i).mp he
  have howner : f.owner a = some e := h.owner_of_mem hmem (by simp [hlists])
  obtain ⟨hleft, hright⟩ := sibling?_of_split hlists (h.whole e l hparent).nodup
  subst hp
  unfold leave?
  simp only [howner, hleft, hright, hparent, hposition]
  constructor
  · cases before.getLast? <;> rfl
  · cases after.head? <;> rfl

/-- Into an element. -/
theorem neighbours_into (he : (f.elements l)[i]? = some e) (hlists : f.listsOf e = a :: after) :
    f.Neighbours ⟨l, i⟩ (startOf a) where
  right := by
    rw [step?_right_of_getElem? he, hlists]
    rfl
  left := by
    rw [step?_left_startOf]
    have hlists : f.listsOf e = [] ++ a :: after := hlists
    exact (h.leave?_of_split he hlists rfl).1

/-- From one list of an element to the next. -/
theorem neighbours_across (he : (f.elements l)[i]? = some e)
    (hlists : f.listsOf e = before ++ a :: b :: after) : f.Neighbours (f.endOf a) (startOf b) where
  right := by
    rw [step?_right_endOf]
    exact (h.leave?_of_split he hlists rfl).2
  left := by
    have hlists : f.listsOf e = (before ++ [a]) ++ b :: after := by simp [hlists]
    rw [step?_left_startOf, (h.leave?_of_split he hlists rfl).1, List.getLast?_concat]
    rfl

/-- Out of an element. -/
theorem neighbours_outOf (he : (f.elements l)[i]? = some e)
    (hlists : f.listsOf e = before ++ [a]) : f.Neighbours (f.endOf a) ⟨l, i + 1⟩ where
  right := by
    rw [step?_right_endOf]
    exact (h.leave?_of_split he hlists rfl).2
  left := by
    rw [step?_left_of_getElem? he, hlists, List.getLast?_concat]
    rfl

end Sound

/-! ## From the first place to the last -/

namespace Leads

theorem single (h : f.Neighbours p q) : f.Leads p [p] q :=
  .step h (.here q)

theorem append (h : f.Leads p ps q) (h' : f.Leads q qs r) : f.Leads p (ps ++ qs) r := by
  induction h with
  | here => exact h'
  | step next _ ih => exact .step next (ih h')

/-- Of two places that follow each other on the way, each is the neighbour of the other. -/
theorem neighbours (h : f.Leads p ps q) {a b : Place} (ha : (ps ++ [q])[i]? = some a)
    (hb : (ps ++ [q])[i + 1]? = some b) : f.Neighbours a b := by
  induction h generalizing i with
  | here => simp at hb
  | @step p p' q ps next rest ih =>
    cases i with
    | zero =>
      -- The second place is the first one of the rest of the way.
      obtain rfl : b = p' := by cases rest <;> simpa [eq_comm] using hb
      obtain rfl : p = a := by simpa using ha
      exact next
    | succ i => exact ih (by simpa using ha) (by simpa using hb)

theorem head? (h : f.Leads p ps q) : (ps ++ [q]).head? = some p := by
  cases h <;> rfl

end Leads

namespace Sound

variable (h : f.Sound pending)

include h

/-- Through the lists of an element from the given one on, and out of it. -/
theorem leads_lists {ways : ListId → List Place}
    (hways : ∀ a ∈ f.listsOf e, f.Leads (startOf a) (ways a) (f.endOf a))
    (he : (f.elements l)[i]? = some e) (hlists : f.listsOf e = before ++ a :: after) :
    f.Leads (startOf a) ((a :: after).flatMap fun a => ways a ++ [f.endOf a]) ⟨l, i + 1⟩ := by
  -- By the lists that are left of the element, which are gone through from left to right.
  induction after generalizing before a with
  | nil =>
    have hinside := hways a (by simp [hlists])
    simpa using hinside.append (.single (h.neighbours_outOf he hlists))
  | cons b after ih =>
    have hinside := hways a (by simp [hlists])
    have hnext := Leads.single (h.neighbours_across he hlists)
    have hlists : f.listsOf e = (before ++ [a]) ++ b :: after := by simp [hlists]
    have hrest := ih hlists
    rw [List.flatMap_cons]
    exact (hinside.append hnext).append hrest

/-- From the place before an element to the place behind it. -/
theorem leads_element {ways : ListId → List Place}
    (hways : ∀ a ∈ f.listsOf e, f.Leads (startOf a) (ways a) (f.endOf a))
    (he : (f.elements l)[i]? = some e) :
    f.Leads ⟨l, i⟩ (⟨l, i⟩ :: (f.listsOf e).flatMap fun a => ways a ++ [f.endOf a]) ⟨l, i + 1⟩ := by
  cases hlists : f.listsOf e with
  | nil => exact .single (neighbours_past he hlists)
  | cons a after =>
    have hlists' : f.listsOf e = [] ++ a :: after := hlists
    exact .step (h.neighbours_into he hlists) (h.leads_lists hways he hlists')

omit h in
/-- Past the elements of a list, one after the other. -/
theorem leads_elements (through : ElementId → Nat → List Place) {es : List ElementId} {k : Nat}
    (hthrough : ∀ i e, es[i]? = some e → f.Leads ⟨l, k + i⟩ (through e (k + i)) ⟨l, k + i + 1⟩) :
    f.Leads ⟨l, k⟩ ((es.zipIdx k).flatMap fun (e, i) => through e i) ⟨l, k + es.length⟩ := by
  induction es generalizing k with
  | nil => exact .here _
  | cons e es ih =>
    have hfirst := hthrough 0 e rfl
    have hrest := ih (k := k + 1) fun i e he => by
      have := hthrough (i + 1) e (by simpa using he)
      simpa [Nat.add_assoc, Nat.add_comm, Nat.add_left_comm] using this
    rw [List.zipIdx_cons, List.flatMap_cons]
    simpa [Nat.add_assoc, Nat.add_comm, Nat.add_left_comm] using hfirst.append hrest

/-- The places of a list lead from its start to its end. -/
theorem leads_list (hb : f.Below n f.root l) (hd : f.listSlots.size ≤ n + depth) :
    ∃ ps, f.placesWithin depth l = ps ++ [f.endOf l] ∧ f.Leads (startOf l) ps (f.endOf l) := by
  -- By depth: the ways through the lists inside are put together to the way past an element.
  induction depth generalizing n l with
  | zero => exact absurd (h.depth_lt hb) (by omega)
  | succ depth ih =>
    refine ⟨_, rfl, ?_⟩
    have hinside : ∀ e ∈ f.elements l, ∀ a ∈ f.listsOf e,
        f.placesWithin depth a = (f.placesWithin depth a).dropLast ++ [f.endOf a] ∧
          f.Leads (startOf a) (f.placesWithin depth a).dropLast (f.endOf a) := by
      intro e he a ha
      obtain ⟨ps, hps, hleads⟩ := ih (hb.inside he ha) (by omega)
      rw [hps, List.dropLast_concat]
      exact ⟨rfl, hleads⟩
    have hthrough : ∀ i e, (f.elements l)[i]? = some e → f.Leads ⟨l, i⟩
        (⟨l, i⟩ :: (f.listsOf e).flatMap (f.placesWithin depth)) ⟨l, i + 1⟩ := by
      intro i e he
      have hmem := List.mem_of_getElem? he
      rw [List.flatMap_congr fun a ha => (hinside e hmem a ha).1]
      exact h.leads_element (fun a ha => (hinside e hmem a ha).2) he
    have hleads := leads_elements (k := 0)
      (fun e i => ⟨l, i⟩ :: (f.listsOf e).flatMap (f.placesWithin depth))
      fun i e he => (Nat.zero_add i).symm ▸ hthrough i e he
    rwa [Nat.zero_add] at hleads

/-- The places of the formula lead from the start of the root to its end. -/
theorem leads_places : ∃ ps, f.places = ps ++ [f.endOf f.root] ∧
    f.Leads (startOf f.root) ps (f.endOf f.root) :=
  h.leads_list (.here f.root) (by omega)

theorem neighbours_places (hp : f.places[i]? = some p) (hq : f.places[i + 1]? = some q) :
    f.Neighbours p q := by
  obtain ⟨ps, hps, hleads⟩ := h.leads_places
  rw [hps] at hp hq
  exact hleads.neighbours hp hq

theorem getElem?_places_zero : f.places[0]? = some (startOf f.root) := by
  obtain ⟨ps, hps, hleads⟩ := h.leads_places
  rw [hps, ← List.head?_eq_getElem?, hleads.head?]

/-- There is no step beyond either end of the root. -/
theorem step?_first : f.step? (startOf f.root) .left = .ok none := by
  rw [step?_left_startOf, leave?]
  simp only [startOf, h.root_owner]

theorem step?_last : f.step? (f.endOf f.root) .right = .ok none := by
  rw [step?_right_endOf, leave?]
  simp only [endOf, h.root_owner]

theorem step?_right (hp : f.places[i]? = some p) : f.step? p .right = .ok f.places[i + 1]? := by
  cases hq : f.places[i + 1]? with
  | some q => exact (h.neighbours_places hp hq).right
  | none =>
    -- The only place without a place behind it is the last one.
    obtain ⟨ps, hps, -⟩ := h.leads_places
    rw [hps, List.getElem?_eq_none_iff, List.length_append, List.length_singleton] at hq
    have hi := (List.getElem?_eq_some_iff.mp hp).1
    obtain rfl : i = ps.length := by
      rw [hps, List.length_append, List.length_singleton] at hi
      omega
    obtain rfl : f.endOf f.root = p := by simpa [hps] using hp
    exact h.step?_last

theorem step?_left (hp : f.places[i]? = some p) :
    f.step? p .left = .ok (if i = 0 then none else f.places[i - 1]?) := by
  cases i with
  | zero =>
    obtain rfl : startOf f.root = p := by simpa [h.getElem?_places_zero] using hp
    exact h.step?_first
  | succ i =>
    have hi := Nat.lt_of_succ_lt (List.getElem?_eq_some_iff.mp hp).1
    have hq : f.places[i]? = some f.places[i] := List.getElem?_eq_getElem hi
    rw [if_neg i.succ_ne_zero, Nat.add_sub_cancel, hq]
    exact (h.neighbours_places hq hp).left

/-- No place is listed twice: on the way back from the later one, the start of the formula would be
reached too early. -/
theorem nodup_places : f.places.Nodup := by
  refine List.nodup_iff_getElem?_ne_getElem?.mpr fun i j hij hj => ?_
  -- If two were the same, so would be those before them, down to the first.
  induction i generalizing j with
  | zero =>
    intro heq
    obtain ⟨j, rfl⟩ : ∃ k, j = k + 1 := ⟨j - 1, by omega⟩
    rw [h.getElem?_places_zero] at heq
    have hback := h.step?_left heq.symm
    have hq : f.places[j]? = some f.places[j] := List.getElem?_eq_getElem (Nat.lt_of_succ_lt hj)
    rw [h.step?_first, if_neg j.succ_ne_zero, Nat.add_sub_cancel, hq] at hback
    cases hback
  | succ i ih =>
    intro heq
    obtain ⟨j, rfl⟩ : ∃ k, j = k + 1 := ⟨j - 1, by omega⟩
    have hp : f.places[j + 1]? = some f.places[j + 1] := List.getElem?_eq_getElem hj
    have hi := h.step?_left (heq.trans hp)
    rw [h.step?_left hp] at hi
    exact ih j (by omega) (Nat.lt_of_succ_lt hj) (by simpa [eq_comm] using hi)

end Sound

end Order

end Formula

namespace Caret

/-- The caret as a move takes it up: a selection begun, or given up. -/
def begun (c : Caret) (select : Bool) : Caret :=
  if select then c.beginSelection else c.cancel

/-- What a move answers that leads to a place, if there is one: the caret there, or where it was, and
whether it moved. -/
def answer (c : Caret) (select : Bool) (next : Option Place) : Caret × Bool :=
  ((c.begun select).moveTo (next.getD c.place), next.isSome)

/-- The places a caret stands at while it moves on in a direction until there is no step to make, or
at most so many times. -/
def visits (f : Formula) (d : Direction) (select : Bool) : Nat → Caret → Except Misuse (List Place)
  | 0, c => .ok [c.place]
  | n + 1, c => do
    let (next, moved) ← c.move f d select
    if moved then
      let rest ← visits f d select n next
      .ok (c.place :: rest)
    else .ok [c.place]

section Moving

open Formula

variable {f : Formula} {c : Caret} {p q : Place} {ps : List Place} {d : Direction} {select : Bool}
  {i n : Nat} {pending : List ElementId}

@[simp] theorem place_begun : (c.begun select).place = c.place := by
  unfold begun beginSelection
  split
  · split <;> rfl
  · rfl

@[simp] theorem place_answer {next : Option Place} :
    (c.answer select next).1.place = next.getD c.place := rfl

theorem move_eq {next : Option Place} (h : f.step? c.place d = .ok next) :
    c.move f d select = .ok (c.answer select next) := by
  change (f.step? (c.begun select).place d >>= _) = _
  rw [place_begun, h]
  cases next with
  | none =>
    have hstays : (c.begun select).moveTo c.place = c.begun select := by
      have hplace : (c.begun select).place = c.place := place_begun
      rw [← hplace]
      rfl
    exact congrArg (fun c => Except.ok (c, false)) hstays.symm
  | some q => rfl

end Moving

section Order

open Formula

variable {f : Formula} {c : Caret} {select : Bool} {i n : Nat} {pending : List ElementId}
  (h : f.Sound pending)

include h

/-- Moving right goes through the places from the caret's on. -/
theorem visits_right (hc : f.places[i]? = some c.place) (hn : f.places.length ≤ i + n + 1) :
    visits f .right select n c = .ok (f.places.drop i) := by
  have hlt := (List.getElem?_eq_some_iff.mp hc).1
  have hdrop : f.places.drop i = c.place :: f.places.drop (i + 1) := by
    rw [List.drop_eq_getElem_cons hlt, (List.getElem?_eq_some_iff.mp hc).2]
  induction n generalizing i c with
  | zero =>
    rw [hdrop, List.drop_eq_nil_of_le (by omega)]
    rfl
  | succ n ih =>
    rw [visits, move_eq (h.step?_right hc), hdrop]
    by_cases hnext : i + 1 < f.places.length
    · have hq : f.places[i + 1]? = some f.places[i + 1] := List.getElem?_eq_getElem hnext
      have hrest := ih (c := (c.answer select f.places[i + 1]?).1) (by rw [hq]; rfl)
        (by omega) hnext (by rw [List.drop_eq_getElem_cons hnext, hq]; rfl)
      simp [answer, hq, bind, Except.bind] at hrest ⊢
      rw [hrest]
    · have hq : f.places[i + 1]? = none := List.getElem?_eq_none_iff.mpr (by omega)
      rw [List.drop_eq_nil_of_le (by omega), hq]
      rfl

/-- Moving left goes through the places up to the caret's, backwards. -/
theorem visits_left (hc : f.places[i]? = some c.place) (hn : i ≤ n) :
    visits f .left select n c = .ok (f.places.take (i + 1)).reverse := by
  have htake : f.places.take (i + 1) = f.places.take i ++ [c.place] := by
    rw [List.take_add_one, hc]
    rfl
  induction n generalizing i c with
  | zero =>
    obtain rfl : i = 0 := by omega
    rw [htake]
    rfl
  | succ n ih =>
    rw [visits, move_eq (h.step?_left hc), htake]
    cases i with
    | zero => rfl
    | succ i =>
      have hlt := Nat.lt_of_succ_lt (List.getElem?_eq_some_iff.mp hc).1
      have hq : f.places[i]? = some f.places[i] := List.getElem?_eq_getElem hlt
      have hrest := ih (c := (c.answer select f.places[i]?).1) (i := i) (by rw [hq]; rfl)
        (by omega) (by rw [List.take_add_one, hq]; rfl)
      simp [answer, hq, bind, Except.bind] at hrest ⊢
      rw [hrest]

/-- A step that was made is undone by a step the other way. -/
theorem move_back {c' : Caret} {d : Direction} (hd : d.isHorizontal = true)
    (hc : f.IsPlace c.place) (hmove : c.move f d select = .ok (c', true)) (select' : Bool) :
    ∃ c'', c'.move f d.opposite select' = .ok (c'', true) ∧ c''.place = c.place := by
  obtain ⟨i, hi⟩ := List.mem_iff_getElem?.mp (h.mem_places.mpr hc)
  have hback : f.step? c'.place d.opposite = .ok (some c.place) := by
    cases d with
    | right =>
      rw [move_eq (h.step?_right hi)] at hmove
      cases hq : f.places[i + 1]? with
      | none => simp [answer, hq] at hmove
      | some q =>
        obtain rfl : (c.begun select).moveTo q = c' := by simpa [answer, hq] using hmove
        exact (h.neighbours_places hi hq).left
    | left =>
      rw [move_eq (h.step?_left hi)] at hmove
      cases i with
      | zero => simp [answer] at hmove
      | succ i =>
        have hlt := Nat.lt_of_succ_lt (List.getElem?_eq_some_iff.mp hi).1
        have hq : f.places[i]? = some f.places[i] := List.getElem?_eq_getElem hlt
        obtain rfl : (c.begun select).moveTo f.places[i] = c' := by
          simpa [answer, hq] using hmove
        exact (h.neighbours_places hq hi).right
    | up => cases hd
    | down => cases hd
  exact ⟨_, move_eq hback, rfl⟩

end Order

open Formula

/-- In a sound formula the places, listed in reading order, are all places, each listed once. A move
to the right leads from each of them to the next and says so, except at the last, where the caret
stays; a move to the left leads to the one before, except at the first. So moves to the left and to
the right undo each other, and moving right from the start visits every place, once and in order, as
moving left from the end does backwards. -/
theorem move_in_reading_order {f : Formula} (h : f.Sound []) :
    (∀ l, f.Reachable l → f.placesFrom l = ((f.elements l).zipIdx.flatMap fun x =>
      ⟨l, x.2⟩ :: (f.listsOf x.1).flatMap f.placesFrom) ++ [f.endOf l]) ∧
    f.places = f.placesFrom f.root ∧
    (∀ p, p ∈ f.places ↔ f.IsPlace p) ∧
    f.places.Nodup ∧
    (∀ (c : Caret) (i : Nat) (select : Bool), f.places[i]? = some c.place →
      c.move f .right select = .ok (c.answer select f.places[i + 1]?) ∧
      c.move f .left select =
        .ok (c.answer select (if i = 0 then none else f.places[i - 1]?))) ∧
    (∀ (c c' : Caret) (d : Direction) (select select' : Bool), d.isHorizontal = true →
      f.IsPlace c.place → c.move f d select = .ok (c', true) →
      ∃ c'', c'.move f d.opposite select' = .ok (c'', true) ∧ c''.place = c.place) ∧
    (∀ (c : Caret) (select : Bool) (n : Nat), c.place = startOf f.root →
      f.places.length ≤ n + 1 → visits f .right select n c = .ok f.places) ∧
    ∀ (c : Caret) (select : Bool) (n : Nat), c.place = f.endOf f.root →
      f.places.length ≤ n + 1 → visits f .left select n c = .ok f.places.reverse := by
  refine ⟨fun l hl => h.placesFrom_eq hl, rfl, fun p => h.mem_places, h.nodup_places, ?_, ?_, ?_,
    ?_⟩
  · exact fun c i select hc => ⟨move_eq (h.step?_right hc), move_eq (h.step?_left hc)⟩
  · exact fun c c' d select select' hd hc hmove => move_back h hd hc hmove select'
  · intro c select n hc hn
    have hfirst : f.places[0]? = some c.place := by rw [h.getElem?_places_zero, hc]
    have hvisits : visits f .right select n c = _ := visits_right h hfirst (by omega)
    rwa [List.drop_zero] at hvisits
  · intro c select n hc hn
    obtain ⟨ps, hps, -⟩ := h.leads_places
    rw [hps, List.length_append, List.length_singleton] at hn
    have hlast : f.places[ps.length]? = some c.place := by simp [hps, hc]
    have hvisits : visits f .left select n c = _ := visits_left h hlast (by omega)
    rwa [List.take_of_length_le (by simp [hps])] at hvisits

/-- Through a fraction and the exponent behind it. -/
theorem move_in_reading_order_of_fraction_and_exponent :
    let f := Formula.ofNodes [.frac [.paren '('] [], .scripts (some [.binary .plus]) none]
    f.Sound [] ∧ visits f .right false 8 (.ofPlace (startOf f.root)) =
      .ok [⟨⟨0⟩, 0⟩, ⟨⟨1⟩, 0⟩, ⟨⟨1⟩, 1⟩, ⟨⟨2⟩, 0⟩, ⟨⟨0⟩, 1⟩, ⟨⟨3⟩, 0⟩, ⟨⟨3⟩, 1⟩, ⟨⟨0⟩, 2⟩] := by
  intro f
  have hfilled : Node.EveryNode Node.Filled
      [.frac [.paren '('] [], .scripts (some [.binary .plus]) none] := by
    simp [Node.everyNode_cons, Node.everyNode_nil, Node.Filled, Node.lists]
  have hf : f.Sound [] := (Document.valid_ofNodes (b := false) hfilled).formula.toSound
  obtain ⟨-, -, -, -, -, -, hvisits, -⟩ := move_in_reading_order hf
  exact ⟨hf, hvisits _ _ 8 rfl (by decide)⟩

end Caret

end FormulaEditor
