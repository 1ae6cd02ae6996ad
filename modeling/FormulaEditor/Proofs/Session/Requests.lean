import FormulaEditor.Node.Outline
import FormulaEditor.Proofs.Session.Reached

/-!
# Requests to a session and what can be seen of it

A user does not see handles. What a pointer hits is named by the way to it from the root, and what a
session shows are texts, outlines, expressions, and the ways to the caret, to the anchor and to the
selection. A log of a session lists the answers to requests together with what could be seen after
each of them.
-/

namespace FormulaEditor.Session

/-- What a pointer hits, named by the way to it. -/
inductive Landmark
  | list (path : Path)
  | element (path : Path)
deriving DecidableEq, Repr

/-- The list or element that a landmark names, if there is one. -/
def Landmark.target? (f : Formula) : Landmark → Option Caret.Target
  | list path => (f.listAt? path).map .list
  | element path => (f.elementAt? path).map .element

/-- What a user asks of a session. -/
inductive Request
  | type (c : Char)
  | press (key : Key)
  | move (d : Direction) (select : Bool)
  | point (landmark : Landmark) (side : Direction) (drag : Bool)
  | paste (text : String)
  | setTex (text : String)
  | setSlider (value : Float)
  | copy
  | cut
  | compact

/-- What a user is told. -/
inductive Response
  | done
  | key (result : KeyResult)
  /-- Whether there was something to do. -/
  | flag (value : Bool)
  | text (text : String)
  /-- The text cannot be read. -/
  | unread (error : Tex.ParseError)
  /-- There is nothing where the pointer is said to be. -/
  | nowhere

/-- The session after a request, and what the user is told. How many slots a compaction drops is not
an answer to a user. -/
def answer (s : Session) : Request → Except Misuse (Session × Response)
  | .type c => do
    let (s, result) ← s.typeChar c
    .ok (s, .key result)
  | .press key => do
    let (s, result) ← s.press key
    .ok (s, .key result)
  | .move d select => do
    let (s, moved) ← s.moveCaret d select
    .ok (s, .flag moved)
  | .point landmark side drag =>
    match landmark.target? s.document.formula with
    | some target => .ok (s.point target side drag, .done)
    | none => .ok (s, .nowhere)
  | .paste text => do
    match ← s.paste text with
    | .ok s => .ok (s, .done)
    | .error error => .ok (s, .unread error)
  | .setTex text =>
    match s.setTex text with
    | .ok s => .ok (s, .done)
    | .error error => .ok (s, .unread error)
  | .setSlider value => do
    let (s, found) ← s.setSlider value
    .ok (s, .flag found)
  | .copy => do
    let text ← s.copy
    .ok (s, .text text)
  | .cut => do
    let (s, text) ← s.cut
    .ok (s, .text text)
  | .compact => do
    let (s, _) ← s.compact
    .ok (s, .done)

/-- What can be seen of a session. -/
structure View where
  tex : String
  outline : String
  /-- The way to the list of the caret, and the position in it. -/
  caret : Option Path × Nat
  anchor : Option (Option Path × Nat)
  selecting : Bool
  /-- The way to the list of the selection, and the range in it. -/
  selection : Except Misuse (Option (Option Path × Nat × Nat))
  /-- What each compiler makes of the content, and what becomes of the compiler. -/
  compiled : Compiler → Expression × Compiler

/-- What can be seen of the session. -/
def view (s : Session) : View :=
  let f := s.document.formula
  let c := s.document.caret
  { tex := s.tex
    outline := Node.outline f.nodes
    caret := (f.pathTo? c.place.list, c.place.pos)
    anchor := c.anchor.map fun p => (f.pathTo? p.list, p.pos)
    selecting := c.selecting
    selection := (c.selection? f).map (Option.map fun sel =>
      (f.pathTo? sel.list, sel.start, sel.stop))
    compiled := s.compile }

/-- The answers to requests, each with what can be seen after it. -/
def log (s : Session) : List Request → Except Misuse (List (Response × View))
  | [] => .ok []
  | request :: requests => do
    let (s, response) ← s.answer request
    let rest ← s.log requests
    .ok ((response, s.view) :: rest)

/-! ## Answers -/

variable {s : Session} {f : Formula}

theorem reachable_listFrom? {l l' : ListId} {path : Path} (hl : f.Reachable l)
    (h : f.listFrom? l path = some l') : f.Reachable l' := by
  induction l, path using Formula.listFrom?.induct with
  | case1 l =>
    obtain rfl : l = l' := Option.some.inj h
    exact hl
  | case2 l i => cases h
  | case3 l i j path ih =>
    simp only [Formula.listFrom?, Option.bind_eq_bind, Option.bind_eq_some_iff] at h
    obtain ⟨e, he, inner, hinner, h⟩ := h
    exact ih inner (hl.inside (List.mem_of_getElem? he) (List.mem_of_getElem? hinner)) h

/-- A landmark names what is part of the formula. -/
theorem Landmark.attached (hf : f.Tidy) {landmark : Landmark} {target : Caret.Target}
    (h : landmark.target? f = some target) : target.Attached f := by
  cases landmark with
  | list path =>
    obtain ⟨l, hl, rfl⟩ := Option.map_eq_some_iff.mp h
    exact reachable_listFrom? Formula.reachable_root hl
  | element path =>
    obtain ⟨e, he, rfl⟩ := Option.map_eq_some_iff.mp h
    simp only [Formula.elementAt?, Option.bind_eq_bind, Option.bind_eq_some_iff] at he
    obtain ⟨i, -, l, hl, he⟩ := he
    exact ⟨l, hf.mem_elements.mp (List.mem_of_getElem? he),
      reachable_listFrom? Formula.reachable_root hl⟩

/-- Every request to a session on a valid document is answered, and the document stays valid. -/
theorem answer_valid (h : s.document.Valid) (request : Request) :
    Succeeds (s.answer request) fun x => x.1.document.Valid := by
  cases request with
  | type c => exact (typeChar_valid h c).bind fun _ hs => .ok hs
  | press key => exact (press_valid h key).bind fun _ hs => .ok hs
  | move d select => exact (moveCaret_valid h d select).bind fun _ hs => .ok hs
  | point landmark side drag =>
    simp only [answer]
    cases htarget : landmark.target? s.document.formula with
    | none => exact .ok h
    | some target => exact .ok (h.point (Landmark.attached h.formula htarget) side drag)
  | paste text =>
    refine (paste_valid h text).bind fun x hx => ?_
    cases x with
    | error error => exact .ok h
    | ok s' => exact .ok (hx s' rfl)
  | setTex text =>
    simp only [answer]
    cases hs : s.setTex text with
    | error error => exact .ok h
    | ok s' => exact .ok (setTex_valid hs)
  | setSlider value => exact (setSlider_valid h value).bind fun _ hs => .ok hs
  | copy =>
    obtain ⟨text, htext⟩ := h.copy
    exact Succeeds.bind (p := fun _ => True) ⟨text, htext, trivial⟩ fun _ _ => .ok h
  | cut => exact (cut_valid h).bind fun _ hs => .ok hs
  | compact => exact (compact_valid h).bind fun _ hs => .ok hs

end FormulaEditor.Session
