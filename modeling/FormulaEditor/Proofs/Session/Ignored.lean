import FormulaEditor.Proofs.Caret.Order

/-!
# Keys that are ignored

A session ignores a character that no key types, and a move at the edge of the formula. The formula
and the place of the caret stay in either case. The selection need not: a move takes it up before it
looks for a step, so an ignored move still begins a selection, or gives one up.
-/

namespace FormulaEditor

namespace Formula

variable {f : Formula} {p : Place} {d : Direction} {pending : List ElementId}

/-- Nothing of the formula lies in the direction: at an end of the root sideways, anywhere in the
root up and down. -/
def AtEdge (f : Formula) (p : Place) : Direction → Prop
  | .left => p = startOf f.root
  | .right => p = f.endOf f.root
  | .up | .down => p.list = f.root

namespace Sound

variable (h : f.Sound pending)

include h

/-- A list of the formula that belongs to no element is the root. -/
theorem eq_root_of_owner {l : ListId} (hl : f.Reachable l) (ho : f.owner l = none) :
    l = f.root := by
  obtain ⟨n, hn⟩ := hl
  cases hn with
  | here => rfl
  | inside _ he hi => simp [h.owner_of_mem he hi] at ho

/-- There is a way out of every list but the root. -/
theorem leave?_eq_none (hp : f.Reachable p.list) : f.leave? p d = .ok none ↔ p.list = f.root := by
  constructor
  · intro hleave
    unfold leave? at hleave
    split at hleave
    · exact h.eq_root_of_owner hp ‹_›
    · repeat' split at hleave
      all_goals cases hleave
  · intro hroot
    rw [leave?, hroot]
    simp only [h.root_owner]

/-- Steps lead on from every place that is not at the edge. -/
theorem step?_eq_none (hp : f.IsPlace p) : f.step? p d = .ok none ↔ f.AtEdge p d := by
  obtain ⟨l, pos⟩ := p
  have hle : pos ≤ (f.elements l).length := hp.le_length
  cases d with
  | left =>
    cases pos with
    | zero =>
      have hstep : f.step? ⟨l, 0⟩ .left = f.leave? ⟨l, 0⟩ .left := step?_left_startOf
      rw [hstep, h.leave?_eq_none hp.reachable]
      simp [AtEdge, startOf]
    | succ i =>
      have he : (f.elements l)[i]? = some (f.elements l)[i] := List.getElem?_eq_getElem hle
      rw [step?_left_of_getElem? he]
      simp [AtEdge, startOf]
  | right =>
    obtain hlt | rfl := Nat.lt_or_eq_of_le hle
    · have he : (f.elements l)[pos]? = some (f.elements l)[pos] := List.getElem?_eq_getElem hlt
      have hend : ⟨l, pos⟩ ≠ f.endOf f.root := by
        rintro ⟨⟩
        exact Nat.lt_irrefl _ hlt
      rw [step?_right_of_getElem? he]
      simp [AtEdge, hend]
    · have hstep : f.step? (f.endOf l) .right = .ok none ↔ l = f.root := by
        rw [step?_right_endOf]
        exact h.leave?_eq_none hp.reachable
      exact hstep.trans ⟨congrArg f.endOf, congrArg Place.list⟩
  | up => exact h.leave?_eq_none hp.reachable
  | down => exact h.leave?_eq_none hp.reachable

end Sound

end Formula

namespace Caret

/-- With an anchor just while selecting, a caret is taken up as it is just if the move asks for the
selection that there is. -/
theorem begun_eq_self {c : Caret} {select : Bool} (h : c.selecting = c.anchor.isSome) :
    c.begun select = c ↔ select = c.selecting := by
  obtain ⟨place, anchor, selecting⟩ := c
  obtain rfl : selecting = anchor.isSome := h
  cases select <;> cases anchor <;> simp [begun, beginSelection, cancel]

end Caret

namespace Session

open Formula

variable {s s' : Session} {d : Direction} {select : Bool}

/-- A character is ignored just if no key types it. -/
theorem typeChar_ignored {c : Char} :
    s.typeChar c = .ok (s', .ignored) ↔ Typed.ofChar? c = none ∧ s' = s := by
  unfold typeChar
  cases Typed.ofChar? c with
  | none => simp [eq_comm]
  | some typed =>
    simp only [reduceCtorEq, false_and, iff_false]
    intro hedit
    obtain ⟨_, _, ⟨⟩⟩ := bind_eq_ok.mp hedit

/-- The session with its caret as a move takes it up. -/
def takenUp (s : Session) (select : Bool) : Session :=
  { s with document := { s.document with caret := s.document.caret.begun select } }

/-- A move is ignored just at the edge. -/
theorem press_move_ignored (hv : s.document.Valid) :
    s.press (.move d select) = .ok (s', .ignored) ↔
      s.document.formula.AtEdge s.document.caret.place d ∧ s' = s.takenUp select := by
  obtain ⟨next, hstep, -⟩ := hv.formula.step? (d := d) hv.caret.place
  have hpress : s.press (.move d select) = .ok ({ s with document :=
      { s.document with caret := (s.document.caret.answer select next).1 } },
      if next.isSome then .moved else .ignored) := by
    simp only [press, moveCaret, Document.move, Caret.move_eq hstep]
    rfl
  rw [hpress, ← hv.formula.toSound.step?_eq_none hv.caret.place, hstep]
  cases next with
  | none =>
    have hstays : (s.document.caret.answer select none).1 = s.document.caret.begun select := by
      have hplace : (s.document.caret.begun select).place = s.document.caret.place :=
        Caret.place_begun
      rw [Caret.answer, Option.getD_none, ← hplace]
      rfl
    simp [hstays, takenUp, eq_comm]
  | some q => simp

/-- Only moves are ignored. -/
theorem move_of_press_ignored {key : Key} (hkey : s.press key = .ok (s', .ignored)) :
    ∃ d select, key = .move d select := by
  cases key with
  | move d select => exact ⟨d, select, rfl⟩
  | selectAll => cases hkey
  | backspace | delete | copy | cut => obtain ⟨_, _, ⟨⟩⟩ := bind_eq_ok.mp hkey

/-- Taking up the caret changes nothing just if the move asks for the selection that there is. -/
theorem takenUp_eq_self (hv : s.document.Valid) :
    s.takenUp select = s ↔ select = s.document.caret.selecting := by
  rw [← Caret.begun_eq_self hv.caret.selecting]
  constructor
  · exact congrArg fun s : Session => s.document.caret
  · intro hcaret
    rw [takenUp, hcaret]

/-- A character is ignored just if no key types it, and leaves the session as it is. A key is
ignored just if it moves the caret and the caret is at the edge of the formula. All that this
changes is the selection: one begins where the caret stands if the move selects and there is none,
and one that there is is given up if the move does not select; otherwise the session stays as it is.
-/
theorem Reached.ignored_iff (h : s.Reached) :
    (∀ c s', s.typeChar c = .ok (s', .ignored) ↔ Typed.ofChar? c = none ∧ s' = s) ∧
    (∀ key s', s.press key = .ok (s', .ignored) ↔ ∃ d select, key = .move d select ∧
      s.document.formula.AtEdge s.document.caret.place d ∧ s' = s.takenUp select) ∧
    ∀ select, s.takenUp select = s ↔ select = s.document.caret.selecting := by
  refine ⟨fun c s' => typeChar_ignored, fun key s' => ?_, fun select => takenUp_eq_self h.valid⟩
  constructor
  · intro hkey
    obtain ⟨d, select, rfl⟩ := move_of_press_ignored hkey
    exact ⟨d, select, rfl, (press_move_ignored h.valid).mp hkey⟩
  · rintro ⟨d, select, rfl, hmove⟩
    exact (press_move_ignored h.valid).mpr hmove

/-- Up and down in the root, without a selection, leave a session as it is. -/
theorem ignored_iff_in_root : ∃ s, (new .standard).perform (.type 'x') = .ok s ∧
    s.press (.move .up false) = .ok (s, .ignored) ∧
    s.press (.move .down true) = .ok (s.takenUp true, .ignored) ∧ s.takenUp true ≠ s := by
  have hx : (Action.type 'x').Allowed (new .standard) := trivial
  refine ⟨_, rfl, ?_⟩
  obtain ⟨-, hpress, hself⟩ := Reached.ignored_iff (.perform (.new .standard) hx rfl)
  refine ⟨(hpress _ _).mpr ⟨.up, false, rfl, rfl, ((hself false).mpr rfl).symm⟩,
    (hpress _ _).mpr ⟨.down, true, rfl, rfl, rfl⟩, fun hsame => ?_⟩
  cases (hself true).mp hsame

/-- Selecting to the right in an empty formula is ignored, and a selection has begun. -/
theorem ignored_move_begins_selection : (new .standard).Reached ∧
    ∃ s, (new .standard).press (.move .right true) = .ok (s, .ignored) ∧
      s.document.caret = ⟨⟨⟨0⟩, 0⟩, some ⟨⟨0⟩, 0⟩, true⟩ ∧ s ≠ new .standard :=
  ⟨.new .standard, _, rfl, rfl, by decide⟩

end Session

end FormulaEditor
