import FormulaEditor.Caret.Movement
import FormulaEditor.Proofs.Formula.Splicing
import FormulaEditor.Proofs.Outcome

/-!
# Places and moves

A place of a formula lies in one of its lists, no further than the end. A caret is valid when it and
its anchor stand at places, and an anchor is there exactly while a selection is under way. Every move
leads from a place to a place.
-/

namespace FormulaEditor

namespace Formula

variable {f g : Formula} {e : ElementId} {l : ListId} {p : Place} {d : Direction}

/-- The place is a gap in a list of the formula. -/
structure IsPlace (f : Formula) (p : Place) : Prop where
  reachable : f.Reachable p.list
  le_length : p.pos ≤ f.length p.list

theorem isPlace_startOf (h : f.Reachable l) : f.IsPlace (startOf l) :=
  ⟨h, Nat.zero_le _⟩

theorem isPlace_endOf (h : f.Reachable l) : f.IsPlace (f.endOf l) :=
  ⟨h, Nat.le_refl _⟩

theorem isPlace_entering (h : f.Reachable l) : f.IsPlace (f.entering d l) := by
  unfold entering
  split
  · exact isPlace_endOf h
  · exact isPlace_startOf h

/-- The two gaps beside an element of the formula are places. -/
theorem isPlace_beside (hf : f.Tidy) (h : f.Reachable l) (he : f.parent e = some l) :
    f.IsPlace ⟨l, f.position e⟩ ∧ f.IsPlace ⟨l, f.position e + 1⟩ := by
  have := hf.position_lt he
  exact ⟨⟨h, Nat.le_of_lt this⟩, ⟨h, this⟩⟩

theorem IsPlace.hasList (hf : f.Tidy) (h : f.IsPlace p) : f.HasList p.list :=
  hf.hasList_of_reachable h.reachable

/-- After a run is replaced, the gaps in front of and behind what came in are places. -/
theorem Tidy.isPlace_replaceRange {start stop pos : Nat} (hf : f.Tidy) (hl : f.Reachable l)
    (hs : start ≤ stop) (hst : stop ≤ f.length l) (es : List ElementId)
    (hpos : pos ≤ start + es.length) : (f.replaceRange l start stop es).1.IsPlace ⟨l, pos⟩ where
  reachable := hf.reachable_replaceRange hl
  le_length := by
    have hlen : _ = _ - _ + es.length := length_replaceRange (hf.hasList_of_reachable hl) hs hst
    change pos ≤ (f.replaceRange l start stop es).1.length l
    omega

/-! ## Elements beside a place -/

theorem mem_lists_of_boundary? {x : Element} (h : x.boundary? d = some l) : l ∈ x.lists := by
  unfold Element.boundary? at h
  split at h
  · exact List.mem_of_getLast? h
  · exact List.mem_of_head? h

theorem mem_lists_of_sibling? {x : Element} {list : ListId} (h : x.sibling? d list = some l) :
    l ∈ x.lists := by
  unfold Element.sibling? at h
  split at h
  · exact mem_lists_of_boundary? h
  · split at h
    · split at h
      · cases h
      · exact List.mem_of_getElem? h
    · exact List.mem_of_getElem? h

theorem adjacent?_eq_some {i : Nat} : f.adjacent? p d = some (i, e) ↔
    adjacentIndex? p d = some i ∧ (f.elements p.list)[i]? = some e := by
  unfold adjacent?
  cases adjacentIndex? p d with
  | none => simp
  | some j =>
    cases he : (f.elements p.list)[j]? with
    | none =>
      simp only [Option.bind_eq_bind, Option.bind_some, he, Option.bind_none, reduceCtorEq,
        Option.some.injEq, false_iff]
      rintro ⟨rfl, h⟩
      simp [he] at h
    | some e' =>
      simp only [Option.bind_eq_bind, Option.bind_some, he, Option.some.injEq, Prod.mk.injEq]
      refine and_congr_right fun hj => ?_
      rw [← hj, he, Option.some.injEq]

/-- Sideways, the element beside a place is the one between it and the next place. -/
theorem adjacentIndex?_eq {i : Nat} (h : adjacentIndex? p d = some i) :
    d = .left ∧ p.pos = i + 1 ∨ d ≠ .left ∧ p.pos = i := by
  unfold adjacentIndex? at h
  split at h
  · split at h
    · cases h
    · cases h
      exact .inl ⟨‹_›, by omega⟩
  · cases h
    exact .inr ⟨‹_›, rfl⟩

/-! ## Steps -/

/-- Leaving a list of the formula leads to a place, and is refused nowhere. -/
theorem Tidy.leave? (hf : f.Tidy) (hp : f.IsPlace p) :
    Succeeds (f.leave? p d) fun next => ∀ q, next = some q → f.IsPlace q := by
  unfold Formula.leave?
  split
  · simp
  · rename_i e ho
    obtain ⟨outer, hparent, hr⟩ := hf.toSound.outer_of_reachable hp.reachable ho
    have hmem := hf.mem_elements.mpr hparent
    split
    · rename_i sibling hs
      have := hr.inside hmem (mem_lists_of_sibling? hs)
      simpa using isPlace_entering this
    · rw [hparent]
      obtain ⟨hbefore, hbehind⟩ := isPlace_beside hf hr hparent
      cases d <;> simpa [Direction.isBackward]

/-- A step from a place leads to a place, and is refused nowhere. -/
theorem Tidy.step? (hf : f.Tidy) (hp : f.IsPlace p) :
    Succeeds (f.step? p d) fun next => ∀ q, next = some q → f.IsPlace q := by
  unfold Formula.step?
  split
  · exact hf.leave? hp
  · rename_i hd
    split
    · exact hf.leave? hp
    · rename_i i e ha
      obtain ⟨hi, he⟩ := adjacent?_eq_some.mp ha
      split
      · rename_i inner hb
        have := hp.reachable.inside (List.mem_of_getElem? he) (mem_lists_of_boundary? hb)
        simpa using isPlace_entering this
      · have hlt : i < f.length p.list := (List.getElem?_eq_some_iff.mp he).1
        have hi := adjacentIndex?_eq hi
        simp only [Succeeds.ok_iff, Option.some.injEq, forall_eq']
        refine ⟨hp.reachable, ?_⟩
        cases d <;> simp [Direction.isBackward, Direction.isVertical] at hi hd ⊢ <;> omega

end Formula

namespace Caret

variable {f : Formula} {c : Caret} {p : Place} {d : Direction}

/-- Caret and anchor stand at places of the formula, and there is an anchor just while a selection is
under way. -/
structure Valid (c : Caret) (f : Formula) : Prop where
  place : f.IsPlace c.place
  anchor : ∀ p, c.anchor = some p → f.IsPlace p
  selecting : c.selecting = c.anchor.isSome

theorem valid_ofPlace (h : f.IsPlace p) : (ofPlace p).Valid f :=
  ⟨h, by simp [ofPlace], rfl⟩

theorem Valid.cancel (h : c.Valid f) : c.cancel.Valid f :=
  ⟨h.place, by simp [Caret.cancel], rfl⟩

theorem Valid.moveTo (h : c.Valid f) (hp : f.IsPlace p) : (c.moveTo p).Valid f :=
  ⟨hp, h.anchor, h.selecting⟩

theorem Valid.beginSelection (h : c.Valid f) : c.beginSelection.Valid f := by
  unfold Caret.beginSelection
  split
  · exact h
  · exact ⟨h.place, by simpa using h.place, rfl⟩

theorem valid_selectAll : (selectAll f).Valid f :=
  ⟨Formula.isPlace_endOf Formula.reachable_root,
    by simpa [selectAll] using Formula.isPlace_startOf Formula.reachable_root, rfl⟩

theorem Valid.move (hf : f.Tidy) (h : c.Valid f) (select : Bool) :
    Succeeds (c.move f d select) fun r =>
      r.1.Valid f ∧ (select = false → r.1.selecting = false) := by
  unfold Caret.move
  have hc : (if select then c.beginSelection else c.cancel).Valid f := by
    split
    · exact h.beginSelection
    · exact h.cancel
  have hs : select = false → (if select then c.beginSelection else c.cancel).selecting = false := by
    rintro rfl
    rfl
  generalize (if select then c.beginSelection else c.cancel) = c' at hc hs
  refine (hf.step? (d := d) hc.place).bind fun next hnext => ?_
  cases next with
  | none => exact .ok ⟨hc, hs⟩
  | some q => exact .ok ⟨hc.moveTo (hnext q rfl), hs⟩

/-- What a pointer may hit: a list of the formula, or an element in one. -/
def Target.Attached (f : Formula) : Target → Prop
  | .list l => f.Reachable l
  | .element e => ∃ l, f.parent e = some l ∧ f.Reachable l

theorem Valid.point (hf : f.Tidy) (h : c.Valid f) {target : Target} (ht : target.Attached f)
    (side : Direction) (drag : Bool) : (c.point f target side drag).Valid f := by
  have hc : (if drag then c.beginSelection else c.cancel).Valid f := by
    split
    · exact h.beginSelection
    · exact h.cancel
  unfold Caret.point
  cases target with
  | list l =>
    refine hc.moveTo ?_
    split
    · exact Formula.isPlace_startOf ht
    · exact Formula.isPlace_endOf ht
  | element e =>
    obtain ⟨l, hl, hr⟩ := ht
    obtain ⟨hbefore, hbehind⟩ := Formula.isPlace_beside hf hr hl
    simp only [hl]
    refine hc.moveTo ?_
    split
    · exact hbehind
    · exact hbefore

end Caret

end FormulaEditor
