import FormulaEditor.Proofs.Session.Edits

/-!
# Sessions that can be reached

A session begins empty or on formula text and goes on by what a user does. Every session reached in
this way is consistent: links agree in both directions, scripts have a half, and caret and anchor
stand in lists of the formula. In a consistent session nothing that a user does is refused.
-/

namespace FormulaEditor.Session

/-- What a user may do in a session. -/
inductive Action
  | type (c : Char)
  | press (key : Key)
  | move (d : Direction) (select : Bool)
  | point (target : Caret.Target) (side : Direction) (drag : Bool)
  | paste (text : String)
  | setTex (text : String)
  | setSlider (value : Float)
  | copy
  | cut
  | compact

/-- The session after an action. Text that cannot be read changes nothing. -/
def perform (s : Session) : Action → Except Misuse Session
  | .type c => (s.typeChar c).map Prod.fst
  | .press key => (s.press key).map Prod.fst
  | .move d select => (s.moveCaret d select).map Prod.fst
  | .point target side drag => .ok (s.point target side drag)
  | .paste text => do
    match ← s.paste text with
    | .ok s => .ok s
    | .error _ => .ok s
  | .setTex text =>
    match s.setTex text with
    | .ok s => .ok s
    | .error _ => .ok s
  | .setSlider value => (s.setSlider value).map Prod.fst
  | .copy => s.copy.map fun _ => s
  | .cut => s.cut.map Prod.fst
  | .compact => s.compact.map Prod.fst

/-- A pointer hits what is part of the formula. -/
def Action.Allowed (s : Session) : Action → Prop
  | .point target _ _ => target.Attached s.document.formula
  | _ => True

/-- The sessions that begin empty or on a text and go on by allowed actions. -/
inductive Reached : Session → Prop
  | new (options : EditorOptions) : Reached (new options)
  | ofTex {text : String} {options : EditorOptions} {s : Session}
    (h : ofTex text options = .ok s) : Reached s
  | perform {s s' : Session} {action : Action} (hs : Reached s) (ha : action.Allowed s)
    (h : s.perform action = .ok s') : Reached s'

/-- The links of a session agree, scripts are filled, and caret and anchor stand in the formula. -/
structure Consistent (s : Session) : Prop where
  /-- An element stands at an index of a list just if it says so. -/
  link : ∀ e l i, (s.document.formula.elements l)[i]? = some e ↔
    s.document.formula.parent e = some l ∧ s.document.formula.position e = i
  /-- A list that belongs to an element is one of its lists. -/
  owned : ∀ l e, s.document.formula.owner l = some e → l ∈ s.document.formula.listsOf e
  /-- The lists of an element of the formula belong to it. -/
  owns : ∀ l, s.document.formula.Reachable l → ∀ e ∈ s.document.formula.elements l,
    ∀ i ∈ s.document.formula.listsOf e, s.document.formula.owner i = some e
  /-- The lists of an element of the formula are different ones. -/
  nodup : ∀ l, s.document.formula.Reachable l → ∀ e ∈ s.document.formula.elements l,
    (s.document.formula.listsOf e).Nodup
  /-- Scripts of the formula have a half, and their acceptor is one of the halves. -/
  scripts : ∀ l, s.document.formula.Reachable l → ∀ e ∈ s.document.formula.elements l,
    ∀ exponent subscript acceptor,
      s.document.formula.element e = .scripts exponent subscript acceptor →
      (exponent.isSome ∨ subscript.isSome) ∧
        ∀ half, acceptor = some half → exponent = some half ∨ subscript = some half
  caret_reachable : s.document.formula.Reachable s.document.caret.place.list
  caret_le_length :
    s.document.caret.place.pos ≤ s.document.formula.length s.document.caret.place.list
  /-- A selection is under way just while there is an anchor. -/
  selecting_iff : s.document.caret.selecting = true ↔ ∃ p, s.document.caret.anchor = some p
  anchor_reachable : ∀ p, s.document.caret.anchor = some p → s.document.formula.Reachable p.list
  anchor_le_length : ∀ p, s.document.caret.anchor = some p →
    p.pos ≤ s.document.formula.length p.list

variable {s : Session}

/-- A session on a valid document is consistent. -/
theorem consistent_of_valid (h : s.document.Valid) : s.Consistent where
  link := h.formula.link
  owned l e ho := (h.formula.owned l e ho).resolve_right List.not_mem_nil
  owns l _ e he := (h.formula.whole e l (h.formula.mem_elements.mp he)).owns
  nodup l _ e he := (h.formula.whole e l (h.formula.mem_elements.mp he)).nodup
  scripts l _ e he exponent subscript acceptor hx := by
    have := h.formula.filled e l (h.formula.mem_elements.mp he)
    rwa [hx] at this
  caret_reachable := h.caret.place.reachable
  caret_le_length := h.caret.place.le_length
  selecting_iff := by rw [h.caret.selecting, Option.isSome_iff_exists]
  anchor_reachable p hp := (h.caret.anchor p hp).reachable
  anchor_le_length p hp := (h.caret.anchor p hp).le_length

/-- What an operation reports besides does not matter to the session. -/
theorem fst_valid {α : Type} {x : Except Misuse (Session × α)}
    (h : Succeeds x fun r => r.1.document.Valid) :
    Succeeds (x.map Prod.fst) fun s' => s'.document.Valid := by
  obtain ⟨r, rfl, hr⟩ := h
  exact .ok hr

/-- An allowed action succeeds and leaves a valid document. -/
theorem perform_valid (h : s.document.Valid) {action : Action} (ha : action.Allowed s) :
    Succeeds (s.perform action) fun s' => s'.document.Valid := by
  cases action with
  | type c => exact fst_valid (typeChar_valid h c)
  | press key => exact fst_valid (press_valid h key)
  | move d select => exact fst_valid (moveCaret_valid h d select)
  | point target side drag => exact .ok (h.point ha side drag)
  | paste text =>
    refine (paste_valid h text).bind fun r hr => ?_
    cases r with
    | ok s' => exact .ok (hr s' rfl)
    | error error => exact .ok h
  | setTex text =>
    simp only [perform]
    cases hs : s.setTex text with
    | ok s' => exact .ok (setTex_valid hs)
    | error error => exact .ok h
  | setSlider value => exact fst_valid (setSlider_valid h value)
  | copy =>
    obtain ⟨text, htext⟩ := h.copy
    exact ⟨s, congrArg (Except.map fun _ => s) htext, h⟩
  | cut => exact fst_valid (cut_valid h)
  | compact => exact fst_valid (compact_valid h)

/-- Whatever is reached stands on a valid document. -/
theorem Reached.valid (h : s.Reached) : s.document.Valid := by
  induction h with
  | new options => exact Document.valid_empty
  | ofTex h => exact setTex_valid h
  | perform _ ha h ih =>
    obtain ⟨s', hs', hv⟩ := perform_valid ih ha
    rw [h] at hs'
    cases hs'
    exact hv

/-- Every session that is reached is consistent, and every action allowed in it leads to a further
one. -/
theorem Reached.consistent (h : s.Reached) :
    s.Consistent ∧ ∀ action : Action, action.Allowed s → ∃ s', s.perform action = .ok s' := by
  refine ⟨consistent_of_valid h.valid, fun action ha => ?_⟩
  obtain ⟨s', hs', -⟩ := perform_valid h.valid ha
  exact ⟨s', hs'⟩

/-- The session in which a script has been opened is one of them. -/
theorem consistent_after_script : ∃ s, (new .standard).perform (.type '^') = .ok s ∧ s.Consistent ∧
    ∀ action : Action, action.Allowed s → ∃ s', s.perform action = .ok s' :=
  have ha : (Action.type '^').Allowed (new .standard) := trivial
  ⟨_, rfl, Reached.consistent (.perform (.new .standard) ha rfl)⟩

end FormulaEditor.Session
