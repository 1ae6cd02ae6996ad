import FormulaEditor.Proofs.Document.Undoing
import FormulaEditor.Proofs.Session.Deletion
import FormulaEditor.Proofs.Session.Setting

/-!
# Backspace after a key

While words are not read, Backspace takes back what the key before it has typed, be it a symbol, a
fraction around operands, an absolute value or new scripts.
-/

namespace FormulaEditor

/-- Scripts stand on one side of the place. -/
def Formula.BesideScripts (f : Formula) (p : Place) : Prop :=
  ∃ d i e, (d = .left ∨ d = .right) ∧ f.adjacent? p d = some (i, e) ∧ (f.kind e).isScripts

namespace Session

open Document

variable {doc : Document} {c : Char}

/-- A key that types one symbol. -/
def IsSymbolKey (c : Char) : Prop :=
  Unicode.isAlphanumeric c ∧ c ∉ Symbol.superscriptDigits ∨
    c ∈ ['+', '-', '*', '=', '!', '.', '\''] ∨ isParen c

/-- A key whose effect on a document Backspace takes back: it types a symbol, a fraction, an absolute
value or new scripts. Beside scripts a key for scripts opens those, and types nothing new. -/
def IsRevocable (doc : Document) (c : Char) : Prop :=
  IsSymbolKey c ∨ c = '/' ∨ c = '|' ∨
    (c = '^' ∨ c = '_') ∧ ¬doc.formula.BesideScripts doc.caret.place

/-- A symbol is a node without lists. -/
theorem IsSymbolKey.ofChar? (h : IsSymbolKey c) : ∃ n, Typed.ofChar? c = some (.node n) ∧
    n.lists = [] ∧ n.Filled ∧ ∀ ls, (n.element ls).Simple := by
  obtain ⟨halpha, hdigit⟩ | hc | hc := h
  · have hnone := List.idxOf?_eq_none_iff.mpr hdigit
    exact ⟨.ofChar c, by simp [Typed.ofChar?, hnone, halpha], rfl, trivial,
      fun _ => ⟨fun _ => rfl, nofun⟩⟩
  · simp only [List.mem_cons, List.not_mem_nil, or_false] at hc
    obtain rfl | rfl | rfl | rfl | rfl | rfl | rfl := hc <;>
      exact ⟨_, rfl, rfl, trivial, fun _ => ⟨fun _ => rfl, nofun⟩⟩
  · obtain rfl | rfl | rfl | rfl | rfl | rfl := isParen_iff.mp hc <;>
      exact ⟨_, rfl, rfl, trivial, fun _ => ⟨fun _ => rfl, nofun⟩⟩

section Applying

variable (h : doc.Resting)

include h

/-- At rest, only scripts beside the caret are opened again. -/
theorem reusableScripts?_eq_none (hnot : ¬doc.formula.BesideScripts doc.caret.place) :
    doc.reusableScripts? none = none := by
  refine Option.eq_none_iff_forall_ne_some.mpr fun ⟨e, d⟩ hreuse => hnot ?_
  obtain ⟨i, hi, hk, -, p, hp, hd⟩ := reusableScripts?_spec hreuse
  obtain rfl : p = doc.caret.place := hp.resolve_right fun hc => by simp [h.anchor] at hc
  obtain ⟨-, hpos⟩ | ⟨-, hpos⟩ := hd
  · exact ⟨.left, i, e, .inl rfl, Formula.adjacent?_eq_some.mpr
      ⟨by simp [Formula.adjacentIndex?, hpos], hi⟩, hk⟩
  · exact ⟨.right, i, e, .inr rfl, Formula.adjacent?_eq_some.mpr
      ⟨by simp [Formula.adjacentIndex?, hpos], hi⟩, hk⟩

variable (hw : doc.convertsWords = false)

include hw

/-- Each of the keys puts one new element in. -/
theorem apply_seats (greedy : Bool) (hc : IsRevocable doc c) : ∃ typed doc',
    Typed.ofChar? c = some typed ∧ typed.apply greedy doc = .ok doc' ∧ doc'.Resting ∧
      doc.formula.Seats doc'.formula doc.caret.place doc.formula.nextElement doc'.caret.place := by
  obtain hc | rfl | rfl | ⟨rfl | rfl, hnot⟩ := hc
  · obtain ⟨n, hn, hlists, hfilled, hx⟩ := hc.ofChar?
    obtain ⟨doc', hinsert, hseats⟩ := h.insertNode_seats hw (n := n) (k := 0) hlists hfilled
      (fun ls _ => hx ls) .left
    exact ⟨_, doc', hn, hinsert, hseats⟩
  · cases greedy with
    | true =>
      obtain ⟨doc', hinsert, hseats⟩ := h.insertAround_seats hw .frac
      refine ⟨.fraction, doc', rfl, ?_, hseats⟩
      change doc.insertGreedy .frac = _
      unfold Document.insertGreedy
      rw [h.selecting]
      exact hinsert
    | false =>
      have hx : ∀ ls, ls.length = 2 → (Node.element (.frac [] []) ls).Simple := fun ls hls => by
        obtain ⟨numerator, denominator, rfl⟩ := List.length_eq_two.mp hls
        exact ⟨nofun, nofun⟩
      obtain ⟨doc', hinsert, hseats⟩ := h.insertNode_seats hw (n := .frac [] []) rfl trivial hx .left
      exact ⟨.fraction, doc', rfl, hinsert, hseats⟩
  · have hx : ∀ ls, ls.length = 1 → (Node.element (.wrapped .abs []) ls).Simple := fun ls hls => by
      obtain ⟨argument, rfl⟩ := List.length_eq_one_iff.mp hls
      exact ⟨nofun, nofun⟩
    obtain ⟨doc', hinsert, hseats⟩ := h.insertNode_seats hw (n := .wrapped .abs []) rfl trivial hx
      .left
    exact ⟨_, doc', rfl, hinsert, hseats⟩
  · obtain ⟨doc', hinsert, hseats⟩ :=
      h.insertScript_seats hw (reusableScripts?_eq_none h hnot) true
    exact ⟨.superscript, doc', rfl, hinsert, hseats⟩
  · obtain ⟨doc', hinsert, hseats⟩ :=
      h.insertScript_seats hw (reusableScripts?_eq_none h hnot) false
    exact ⟨.subscript, doc', rfl, hinsert, hseats⟩

end Applying

/-- While words are not read and nothing is selected, Backspace takes back what was typed: the
formula reads as before, and the caret is at the same position of the same list, which is at the end
of the same path. -/
theorem Reached.typeChar_backspace {s : Session} (h : s.Reached)
    (ho : s.options.convertSpecials = false) (hs : s.document.caret.selecting = false)
    (hc : IsRevocable s.document c) :
    ∃ s' s'', s.typeChar c = .ok (s', .edited) ∧ s'.press .backspace = .ok (s'', .edited) ∧
      s''.document.formula.nodes = s.document.formula.nodes ∧
      s''.document.caret = s.document.caret ∧
      s''.document.formula.pathTo? s''.document.caret.place.list =
        s.document.formula.pathTo? s.document.caret.place.list := by
  have hrest : s.document.Resting := ⟨h.valid, hs⟩
  have hf := hrest.formula
  obtain ⟨typed, doc', htyped, happly, hrest', hseats⟩ :=
    apply_seats hrest (h.agrees.trans ho) s.options.greedyFraction hc
  obtain ⟨doc'', hdelete, hrest'', hagrees, hplace⟩ := hrest'.delete_seated hf hseats
  have hcaret : doc''.caret = s.document.caret := by
    rw [hrest''.caret_eq, hplace, ← hrest.caret_eq]
  refine ⟨{ s with document := doc' }, { s with document := doc'' }, ?_,
    press_deletes rfl hdelete, hagrees.nodes_eq hf.toSound hrest''.formula.toSound, hcaret, ?_⟩
  · unfold Session.typeChar Session.edit
    rw [htyped]
    simp only [happly, bind, Except.bind]
  · rw [hcaret]
    exact hagrees.pathTo?_eq hf.toSound hrest''.formula.toSound hrest.caret.place.reachable

/-- A fraction that has taken a symbol in gives it back. -/
theorem typeChar_backspace_fraction : ∃ s s' s'' : Session,
    (new ⟨false, true⟩).perform (.type 'x') = .ok s ∧ s.options.convertSpecials = false ∧
      s.document.caret.selecting = false ∧ IsRevocable s.document '/' ∧
      s.typeChar '/' = .ok (s', .edited) ∧ s'.press .backspace = .ok (s'', .edited) ∧
      s''.document.formula.nodes = s.document.formula.nodes ∧
      s''.document.caret = s.document.caret ∧
      s''.document.formula.pathTo? s''.document.caret.place.list =
        s.document.formula.pathTo? s.document.caret.place.list := by
  have htype : (Action.type 'x').Allowed (new ⟨false, true⟩) := trivial
  have hs : (new ⟨false, true⟩).perform (.type 'x') = .ok _ := rfl
  have hc : ∀ doc : Document, IsRevocable doc '/' := fun _ => .inr (.inl rfl)
  obtain ⟨s', s'', htaken⟩ :=
    Reached.typeChar_backspace (.perform (.new ⟨false, true⟩) htype hs) rfl rfl (hc _)
  exact ⟨_, s', s'', hs, rfl, rfl, hc _, htaken⟩

end Session

end FormulaEditor
