import FormulaEditor.Proofs.Document.Compaction
import FormulaEditor.Proofs.Document.EmbeddedInsert
import FormulaEditor.Proofs.Session.Requests

/-!
# Compaction cannot be seen

A session and the same session after compaction show the same, and go on to do so whatever is asked
of them. The relation between the two that every request keeps is that the document of the compacted
one is carried by the document of the other one.
-/

namespace FormulaEditor

namespace Handles

/-- The handles themselves. -/
def same : Handles :=
  ⟨id, id, id, id⟩

theorem embeds_same (f : Formula) : same.Embeds f f := by
  have helement : ∀ x : Element, x.rename id = x := fun x => by
    cases x <;> simp [Element.rename]
  have helementSlot : same.elementSlot = id := funext fun slot => by
    change ElementSlot.mk (slot.parent.map id) slot.position (slot.element.rename id) = _
    rw [helement, Option.map_id_apply, id]
  have hlistSlot : same.listSlot = id := funext fun slot => by
    change ListSlot.mk (slot.owner.map id) (slot.elements.map id) = _
    rw [Option.map_id_apply, List.map_id, id]
  exact {
    elementSlot := fun e => by rw [helementSlot, Option.map_id_apply]; rfl
    listSlot := fun l => by rw [hlistSlot, Option.map_id_apply]; rfl
    root := rfl
    nextElement := fun _ => rfl
    nextList := fun _ => rfl }

theorem carries_same (doc : Document) : same.Carries doc doc where
  formula := embeds_same doc.formula
  caret := by
    obtain ⟨_, ⟨place, anchor, selecting⟩, _⟩ := doc
    cases anchor <;> rfl
  convertsWords := rfl

end Handles

namespace Session

open Handles

/-- The second session has the same options, and its document carries that of the first one. -/
structure Alike (r : Handles) (s t : Session) : Prop where
  document : r.Carries s.document t.document
  options : t.options = s.options

variable {r : Handles} {s t : Session} {doc doc' : Document}

theorem alike_same (s : Session) : Alike same s s :=
  ⟨carries_same s.document, rfl⟩

/-! ## Requests -/

theorem carries_apply {greedy : Bool} {typed : Typed} (h : r.Carries doc doc') (hv : doc.Valid)
    (hn : ∀ n, typed = .node n → Node.EveryNode Node.Filled [n]) :
    Parallel r.Carries (typed.apply greedy doc) (typed.apply greedy doc') := by
  cases typed with
  | raised digit =>
    have hdigit : Node.EveryNode Node.Filled [.atom (toString digit)] :=
      Node.everyNode_filled trivial (by simp [Node.lists])
    refine (h.insertScript hv true).bind ?_
    intro d₁ d₂ hd₁ hd
    refine (hd.insertNode ((hv.insertScript true).of_eq_ok hd₁).toValid hdigit .left).bind ?_
    intro d₁ d₂ _ hd
    refine (hd.move .right false).bind ?_
    rintro ⟨d₁, _⟩ ⟨d₂, _⟩ - ⟨hd, -⟩
    exact .ok hd
  | node n => exact h.insertNode hv (hn n rfl) .left
  | fraction =>
    cases greedy with
    | true => exact h.insertGreedy hv .frac
    | false => exact h.insertNode hv (Document.filled_emptyNode .frac) .left
  | superscript => exact h.insertScript hv true
  | subscript => exact h.insertScript hv false

namespace Alike

variable (h : Alike r s t)

include h

theorem edit {change change' : Document → Except Misuse Document}
    (hc : Parallel r.Carries (change s.document) (change' t.document)) :
    Parallel (Alike r) (s.edit change) (t.edit change') :=
  hc.bind fun _ _ _ hd => .ok ⟨hd, h.options⟩

theorem typeChar (hv : s.document.Valid) (c : Char) :
    Parallel (fun x y => Alike r x.1 y.1 ∧ y.2 = x.2) (s.typeChar c) (t.typeChar c) := by
  unfold Session.typeChar
  cases htyped : Typed.ofChar? c with
  | none => exact .ok ⟨h, rfl⟩
  | some typed =>
    simp only [h.options]
    refine (h.edit (carries_apply h.document hv fun n hn => ?_)).bind ?_
    · exact Typed.filled_of_ofChar? (hn ▸ htyped)
    · exact fun _ _ _ hst => .ok ⟨hst, rfl⟩

theorem moveCaret (d : Direction) (select : Bool) :
    Parallel (fun x y => Alike r x.1 y.1 ∧ y.2 = x.2) (s.moveCaret d select)
      (t.moveCaret d select) := by
  refine (h.document.move d select).bind ?_
  rintro ⟨d₁, moved⟩ ⟨d₂, _⟩ - ⟨hd, rfl⟩
  exact .ok ⟨⟨hd, h.options⟩, rfl⟩

theorem cut (hv : s.document.Valid) :
    Parallel (fun x y => Alike r x.1 y.1 ∧ y.2 = x.2) s.cut t.cut := by
  refine (h.document.cut hv).bind ?_
  rintro ⟨d₁, text⟩ ⟨d₂, _⟩ - ⟨hd, rfl⟩
  exact .ok ⟨⟨hd, h.options⟩, rfl⟩

theorem delete (hv : s.document.Valid) (d : Direction) :
    Parallel (Alike r) (s.edit fun doc => (doc.delete d).map Prod.fst)
      (t.edit fun doc => (doc.delete d).map Prod.fst) :=
  h.edit ((h.document.delete hv d).map fun _ _ hx => hx.1)

theorem press (hv : s.document.Valid) (key : Key) :
    Parallel (fun x y => Alike r x.1 y.1 ∧ y.2 = x.2) (s.press key) (t.press key) := by
  cases key with
  | move d select =>
    refine (h.moveCaret d select).bind ?_
    rintro ⟨s', moved⟩ ⟨t', _⟩ - ⟨hst, rfl⟩
    exact .ok ⟨hst, rfl⟩
  | backspace => exact (h.delete hv .left).bind fun _ _ _ hst => .ok ⟨hst, rfl⟩
  | delete => exact (h.delete hv .right).bind fun _ _ _ hst => .ok ⟨hst, rfl⟩
  | selectAll => exact .ok ⟨⟨h.document.selectAll, h.options⟩, rfl⟩
  | copy =>
    have hcopy : t.copy = s.copy := h.document.copy hv
    simp only [Session.press, hcopy]
    refine (Parallel.refl s.copy).bind ?_
    rintro text _ - rfl
    exact .ok ⟨h, rfl⟩
  | cut =>
    refine (h.cut hv).bind ?_
    rintro ⟨s', text⟩ ⟨t', _⟩ - ⟨hst, rfl⟩
    exact .ok ⟨hst, rfl⟩

theorem paste (hv : s.document.Valid) (text : String) :
    Parallel (Parallel (Alike r)) (s.paste text) (t.paste text) := by
  refine (h.document.paste hv text).bind ?_
  intro x y _ hxy
  cases hxy with
  | error error => exact .ok (.error error)
  | ok hd => exact .ok (.ok ⟨hd, h.options⟩)

/-- What is put in place of the content does not depend on it. -/
theorem setTex (text : String) : t.setTex text = s.setTex text := by
  unfold Session.setTex
  obtain ⟨_, options⟩ := s
  obtain ⟨_, _⟩ := t
  obtain rfl := h.options
  rfl

theorem target? (landmark : Landmark) : landmark.target? t.document.formula =
    (landmark.target? s.document.formula).map r.target := by
  cases landmark with
  | list path =>
    simp only [Landmark.target?, h.document.formula.listAt?, Option.map_map]
    rfl
  | element path =>
    simp only [Landmark.target?, h.document.formula.elementAt?, Option.map_map]
    rfl

theorem setSlider (hv : s.document.Valid) (value : Float) :
    Parallel (fun x y => Alike r x.1 y.1 ∧ y.2 = x.2) (s.setSlider value) (t.setSlider value) := by
  have hf := h.document.formula
  have hequals : (t.document.formula.elements t.document.formula.root).findIdx?
      (fun e => t.document.formula.kind e = .binary .equals) =
      (s.document.formula.elements s.document.formula.root).findIdx?
        fun e => s.document.formula.kind e = .binary .equals := by
    rw [hf.root, hf.elements, List.findIdx?_map]
    simp only [Function.comp_def, hf.kind]
  unfold Session.setSlider
  split
  · exact .ok ⟨h, rfl⟩
  · simp only [hequals]
    split
    · exact .ok ⟨h, rfl⟩
    · rename_i equals hindex
      have hlt : equals < s.document.formula.length s.document.formula.root :=
        (List.findIdx?_eq_some_iff_findIdx_eq.mp hindex).1
      rw [hf.root, hf.length]
      refine (h.document.cancelSelection.splice s.document.formula.root (equals + 1)
        (s.document.formula.length s.document.formula.root) []).bind ?_
      rintro ⟨d₁, _⟩ ⟨d₂, _⟩ hd₁ ⟨hd, -⟩
      have hend := (resting_dropAfter hv hlt).of_eq_ok hd₁
      have hcaret := hd.moveCaret (d₁.formula.endOf s.document.formula.root)
      rw [← hd.formula.endOf] at hcaret
      refine (hcaret.insertNodes hend (filled_sliderNodes _) .left).bind ?_
      exact fun _ _ _ hd => .ok ⟨⟨hd, h.options⟩, rfl⟩

omit h in
/-- What an operation reports is told to the user in either case. -/
theorem answered {α : Type} {x y : Except Misuse (Session × α)}
    (hxy : Parallel (fun x y => Alike r x.1 y.1 ∧ y.2 = x.2) x y) (response : α → Response) :
    Parallel (fun x y => (∃ r, Alike r x.1 y.1) ∧ y.2 = x.2)
      (x >>= fun result => .ok (result.1, response result.2))
      (y >>= fun result => .ok (result.1, response result.2)) := by
  refine hxy.bind ?_
  rintro ⟨s', result⟩ ⟨t', _⟩ - ⟨hst, rfl⟩
  exact .ok ⟨⟨r, hst⟩, rfl⟩

/-- Two sessions of which the second carries the first answer a request in the same way, and the
second goes on carrying the first. -/
theorem answer (hv : s.document.Valid) (request : Request) :
    Parallel (fun x y => (∃ r, Alike r x.1 y.1) ∧ y.2 = x.2) (s.answer request)
      (t.answer request) := by
  cases request with
  | type c => exact answered (h.typeChar hv c) .key
  | press key => exact answered (h.press hv key) .key
  | move d select => exact answered (h.moveCaret d select) .flag
  | point landmark side drag =>
    simp only [Session.answer, h.target?]
    cases landmark.target? s.document.formula with
    | none => exact .ok ⟨⟨r, h⟩, rfl⟩
    | some target => exact .ok ⟨⟨r, h.document.point target side drag, h.options⟩, rfl⟩
  | paste text =>
    refine (h.paste hv text).bind fun x y _ hxy => ?_
    cases hxy with
    | error error => exact .ok ⟨⟨r, h⟩, rfl⟩
    | ok hst => exact .ok ⟨⟨r, hst⟩, rfl⟩
  | setTex text =>
    simp only [Session.answer, h.setTex]
    cases s.setTex text with
    | error error => exact .ok ⟨⟨r, h⟩, rfl⟩
    | ok s' => exact .ok ⟨⟨same, alike_same s'⟩, rfl⟩
  | setSlider value => exact answered (h.setSlider hv value) .flag
  | copy =>
    have hcopy : t.copy = s.copy := h.document.copy hv
    simp only [Session.answer, hcopy]
    refine (Parallel.refl s.copy).bind ?_
    rintro text _ - rfl
    exact .ok ⟨⟨r, h⟩, rfl⟩
  | cut => exact answered (h.cut hv) .text
  | compact =>
    -- Both are compacted to one document, so from here on the handles are the same.
    obtain ⟨d, n, n', hs, ht⟩ := h.document.compact hv
    simp only [Session.answer, Session.compact, hs, ht]
    exact .ok ⟨⟨same, carries_same d, h.options⟩, rfl⟩

/-! ## What can be seen -/

theorem pathTo? (hv : s.document.Valid) {p : Place} (hp : s.document.formula.IsPlace p) :
    t.document.formula.pathTo? (r.place p).list = s.document.formula.pathTo? p.list :=
  h.document.formula.pathTo? hv.formula hp.reachable

/-- The ways to the selections are the same. -/
theorem selection (hv : s.document.Valid) :
    (t.document.caret.selection? t.document.formula).map (Option.map fun sel =>
      (t.document.formula.pathTo? sel.list, sel.start, sel.stop)) =
    (s.document.caret.selection? s.document.formula).map (Option.map fun sel =>
      (s.document.formula.pathTo? sel.list, sel.start, sel.stop)) := by
  rw [h.document.caret, h.document.formula.selection? hv.formula hv.caret]
  cases ha : s.document.caret.anchor with
  | none =>
    rw [Caret.selection?, ha]
    rfl
  | some anchor =>
    obtain ⟨sel, hsel, hvalid⟩ := hv.caret.selection? hv.formula ha
    rw [hsel]
    have hpath := h.document.formula.pathTo? hv.formula hvalid.reachable
    simp only [Except.map, Option.map_some, Handles.selection, hpath]

/-- The same can be seen of two sessions of which the second carries the first. -/
theorem view (hv : s.document.Valid) : t.view = s.view := by
  have hnodes := h.document.formula.nodes hv.formula
  have htex := h.document.formula.tex hv.formula
  have hcaret : (t.document.formula.pathTo? t.document.caret.place.list,
      t.document.caret.place.pos) =
      (s.document.formula.pathTo? s.document.caret.place.list, s.document.caret.place.pos) := by
    rw [h.document.caret_place, h.pathTo? hv hv.caret.place]
    rfl
  have hanchor : t.document.caret.anchor.map (fun p => (t.document.formula.pathTo? p.list, p.pos)) =
      s.document.caret.anchor.map fun p => (s.document.formula.pathTo? p.list, p.pos) := by
    rw [h.document.caret, Handles.caret]
    cases ha : s.document.caret.anchor with
    | none => rfl
    | some p =>
      rw [Option.map_some, Option.map_some, h.pathTo? hv (hv.caret.anchor p ha)]
      rfl
  have hcompiled : t.compile = s.compile := funext fun compiler => by
    rw [Session.compile, hnodes, Session.compile]
  unfold Session.view Session.tex Document.tex
  simp only [hcompiled, htex, hnodes, hcaret, hanchor, h.selection hv, h.document.selecting]

/-- A step: both answer alike, and the same can be seen afterwards. -/
theorem step (hv : s.document.Valid) (request : Request) :
    ∃ s' t' response r', s.answer request = .ok (s', response) ∧
      t.answer request = .ok (t', response) ∧ Alike r' s' t' ∧ s'.document.Valid ∧
      t'.view = s'.view := by
  obtain ⟨⟨s', response⟩, hs, hv'⟩ := answer_valid hv request
  have hanswer := h.answer hv request
  rw [hs] at hanswer
  generalize ht : t.answer request = y at hanswer
  cases hanswer with
  | @ok _ b hb =>
    obtain ⟨t', response'⟩ := b
    obtain ⟨⟨r', hst⟩, hresponse⟩ := hb
    obtain rfl : response' = response := hresponse
    exact ⟨s', t', response', r', hs, rfl, hst, hv', hst.view hv'⟩

/-- A run: both log the same, whatever is asked of them. -/
theorem log (hv : s.document.Valid) (requests : List Request) :
    ∃ log, s.log requests = .ok log ∧ t.log requests = .ok log := by
  -- The handles may differ after each request, so `r` is not fixed.
  induction requests generalizing r s t with
  | nil => exact ⟨[], rfl, rfl⟩
  | cons request requests ih =>
    obtain ⟨s', t', response, r', hs, ht, hst, hv', hview⟩ := h.step hv request
    obtain ⟨rest, hrest, hrest'⟩ := ih hst hv'
    refine ⟨(response, s'.view) :: rest, ?_, ?_⟩
    · simp only [Session.log, hs, hrest, bind, Except.bind]
    · simp only [Session.log, ht, hrest', hview, bind, Except.bind]

end Alike

/-! ## Compacting -/

/-- A compaction of a valid document succeeds and leaves a slot for each element and each list that
can be reached from the root. The number it returns is the number of slots it drops. -/
theorem exists_compact (hv : s.document.Valid) :
    ∃ t n r, s.compact = .ok (t, n) ∧ Alike r t s ∧ t.document.Valid ∧
      t.document.formula.slotCount =
        t.document.formula.allElements.length + t.document.formula.allLists.length ∧
      n + t.document.formula.slotCount = s.document.formula.slotCount := by
  obtain ⟨d, n, hd, ⟨r, hr⟩, hn, hcount⟩ := hv.exists_compact
  have hdv : d.Valid := hv.compact.of_eq_ok hd
  have hlists := hr.formula.allLists hdv.formula
  have helements := hr.formula.allElements hdv.formula
  have hle : d.formula.slotCount ≤ s.document.formula.slotCount :=
    Nat.add_le_add hr.formula.size_elementSlots_le hr.formula.size_listSlots_le
  refine ⟨{ s with document := d }, n, r, ?_, ⟨hr, rfl⟩, hdv, ?_, ?_⟩
  · simp only [Session.compact, hd, bind, Except.bind]
  · rw [hcount, helements, hlists, List.length_map, List.length_map]
  · change n + d.formula.slotCount = _
    omega

/-- What is left by a compaction is left by the next one, too. -/
theorem compact_eq_zero (hv : s.document.Valid) (hcount : s.document.formula.slotCount =
      s.document.formula.allElements.length + s.document.formula.allLists.length) :
    ∃ u, s.compact = .ok (u, 0) := by
  obtain ⟨d, n, hd, -, hn, hcount'⟩ := hv.exists_compact
  obtain rfl : n = 0 := by omega
  exact ⟨{ s with document := d }, by simp only [Session.compact, hd, bind, Except.bind]⟩

/-- Compaction cannot be seen. A session that is reached can be compacted; what is left are slots for
just the elements and lists of the formula, the number returned is the number of slots dropped, and
a second compaction drops none. The session shows the same as before, and it answers every sequence
of requests as it would have without the compaction, with the same to be seen after each of them. -/
theorem Reached.compact_unobservable (h : s.Reached) :
    ∃ t n, s.compact = .ok (t, n) ∧
      (∃ es ls, t.document.formula.Inventory es ls ∧
        t.document.formula.slotCount = es.length + ls.length) ∧
      n + t.document.formula.slotCount = s.document.formula.slotCount ∧
      (∃ u, t.compact = .ok (u, 0)) ∧
      t.view = s.view ∧
      ∀ requests, ∃ log, s.log requests = .ok log ∧ t.log requests = .ok log := by
  obtain ⟨t, n, r, hcompact, halike, ht, hcount, hn⟩ := exists_compact h.valid
  refine ⟨t, n, hcompact, ⟨_, _, ht.formula.inventory, hcount⟩, hn, compact_eq_zero ht hcount,
    (halike.view ht).symm, fun requests => ?_⟩
  obtain ⟨log, ht, hs⟩ := halike.log ht requests
  exact ⟨log, hs, ht⟩

/-- A script has been typed and deleted again: its element and its list are left over. -/
def scriptDeleted : Session where
  document := {
    formula := {
      elementSlots := #[⟨none, 0, .scripts (some ⟨1⟩) none (some ⟨1⟩)⟩]
      listSlots := #[⟨none, []⟩, ⟨none, []⟩]
      root := ⟨0⟩ }
    caret := ⟨⟨⟨0⟩, 0⟩, none, false⟩
    convertsWords := true }
  options := .standard

theorem reached_scriptDeleted : scriptDeleted.Reached := by
  have htype : (Action.type '^').Allowed (new .standard) := trivial
  obtain ⟨s₁, h₁⟩ : ∃ s₁, (new .standard).perform (.type '^') = .ok s₁ := ⟨_, rfl⟩
  have hpress : (Action.press .backspace).Allowed s₁ := trivial
  have h₂ : ((new .standard).perform (.type '^') >>= (·.perform (.press .backspace))) =
      .ok scriptDeleted := by
    decide +kernel
  rw [h₁] at h₂
  exact .perform (.perform (.new .standard) htype h₁) hpress h₂

/-- The two slots that are left over go. -/
theorem compact_unobservable_of_deleted_script :
    scriptDeleted.compact.map Prod.snd = .ok 2 ∧
    ∃ t n, scriptDeleted.compact = .ok (t, n) ∧
      (∃ es ls, t.document.formula.Inventory es ls ∧
        t.document.formula.slotCount = es.length + ls.length) ∧
      n + t.document.formula.slotCount = scriptDeleted.document.formula.slotCount ∧
      (∃ u, t.compact = .ok (u, 0)) ∧
      t.view = scriptDeleted.view ∧
      ∀ requests, ∃ log, scriptDeleted.log requests = .ok log ∧ t.log requests = .ok log :=
  ⟨by decide +kernel, Reached.compact_unobservable reached_scriptDeleted⟩

end Session

end FormulaEditor
