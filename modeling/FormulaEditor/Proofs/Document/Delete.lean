import FormulaEditor.Proofs.Caret.Selection
import FormulaEditor.Proofs.Document.Vacating

/-!
# Deleting keeps a document valid

A document is valid when its formula is tidy and its caret stands in it; it rests when nothing is
being selected. Deleting from a valid document succeeds and leaves one that rests.
-/

namespace FormulaEditor

/-- The halves of scripts with two are different lists. -/
theorem Formula.Sound.halves_ne {f : Formula} {pending : List ElementId} {e : ElementId}
    {l exponent subscript : ListId} {acceptor : Option ListId} (h : f.Sound pending)
    (he : e ∈ f.elements l)
    (hx : f.element e = .scripts (some exponent) (some subscript) acceptor) :
    f.listsOf e = [exponent, subscript] ∧ exponent ≠ subscript := by
  have hlists : f.listsOf e = [exponent, subscript] := by
    rw [listsOf, hx]
    rfl
  have hnodup := (h.whole e l (h.mem_elements.mp he)).nodup
  rw [hlists] at hnodup
  exact ⟨hlists, by simpa using hnodup⟩

namespace Document

variable {doc : Document} {g : Formula} {p q : Place} {d : Direction} {l : ListId}
  {start stop : Nat} {es : List ElementId}

/-- The formula is tidy, and the caret stands in it. -/
structure Valid (doc : Document) : Prop where
  formula : doc.formula.Tidy
  caret : doc.caret.Valid doc.formula

/-- The document is valid, and nothing is being selected in it. -/
structure Resting (doc : Document) : Prop extends Valid doc where
  selecting : doc.caret.selecting = false

theorem Resting.anchor (h : doc.Resting) : doc.caret.anchor = none := by
  simpa [h.selecting] using h.caret.selecting

theorem Resting.caret_eq (h : doc.Resting) : doc.caret = .ofPlace doc.caret.place := by
  have hanchor := h.anchor
  have hselecting := h.selecting
  cases hcaret : doc.caret
  simp_all [Caret.ofPlace]

/-- In a document that rests, the caret follows an edit to a place of the new formula. -/
theorem Resting.edit (h : doc.Resting) (hg : g.Tidy) (hq : g.IsPlace q) :
    (moveCaret { doc with formula := g } q).Resting where
  formula := hg
  caret :=
    { place := hq
      anchor := by simp [moveCaret, Caret.moveTo, h.anchor]
      selecting := by simp [moveCaret, Caret.moveTo, h.anchor, h.selecting] }
  selecting := h.selecting

@[simp] theorem formula_moveCaret : (doc.moveCaret p).formula = doc.formula := rfl

/-- The caret may stay where it is if that is still a place. -/
theorem Resting.setFormula (h : doc.Resting) (hg : g.Tidy) (hq : g.IsPlace doc.caret.place) :
    { doc with formula := g }.Resting :=
  h.edit hg hq

theorem Resting.moveCaret (h : doc.Resting) (hq : doc.formula.IsPlace q) :
    (doc.moveCaret q).Resting :=
  h.edit h.formula hq

theorem Valid.cancelSelection (h : doc.Valid) : doc.cancelSelection.Resting :=
  ⟨⟨h.formula, h.caret.cancel⟩, rfl⟩

theorem splice_eq (hs : start ≤ stop) (hst : stop ≤ doc.formula.length l) :
    doc.splice l start stop es =
      .ok ({ doc with formula := (doc.formula.replaceRange l start stop es).1 },
        doc.formula.range l start stop) := by
  rw [splice, Formula.splice_eq hs hst]
  rfl

theorem insertElements_eq {pos : Nat} {behind : Bool} (hst : pos ≤ doc.formula.length l) :
    doc.insertElements l pos es behind =
      .ok (moveCaret { doc with formula := (doc.formula.replaceRange l pos pos es).1 }
        ⟨l, if behind then pos + es.length else pos⟩) := by
  rw [insertElements, splice_eq (Nat.le_refl _) hst]
  rfl

/-- Putting ready elements in at a place, with the caret behind or before them. -/
theorem Resting.insertElements {pos : Nat} {behind : Bool} (h : doc.Resting) (hg : g.Tidy)
    (hp : g.IsPlace ⟨l, pos⟩) (hes : g.Ready es) :
    Succeeds (insertElements { doc with formula := g } l pos es behind) Resting := by
  have hle : pos ≤ g.length l := hp.le_length
  rw [insertElements_eq hle]
  refine .ok (h.edit (hg.replaceRange (hp.hasList hg) (Nat.le_refl _) hes) ?_)
  refine hg.isPlace_replaceRange hp.reachable (Nat.le_refl _) hle es ?_
  split <;> omega

/-! ## One element -/

theorem isPlace_deletionPlace {f : Formula} (depth : Nat) (hp : f.IsPlace p) :
    f.IsPlace (f.deletionPlace d depth p) := by
  induction depth generalizing p with
  | zero => exact hp
  | succ depth ih =>
    unfold Formula.deletionPlace
    split
    · rename_i inner h
      obtain ⟨⟨i, e⟩, ha, hb⟩ := Option.bind_eq_some_iff.mp h
      have he := List.mem_of_getElem? (Formula.adjacent?_eq_some.mp ha).2
      exact ih (Formula.isPlace_entering
        (hp.reachable.inside he (Formula.mem_lists_of_boundary? hb)))
    · exact hp

section Dissolving

variable {e : ElementId} {outer : ListId}

/-- Taking one half from scripts with two leaves the other one. -/
theorem Resting.dropHalf {half exponent subscript : ListId} {acceptor : Option ListId}
    (h : doc.Resting) (hr : doc.formula.Reachable outer) (hp : doc.formula.parent e = some outer)
    (he : doc.formula.element e = .scripts (some exponent) (some subscript) acceptor)
    (hh : half = exponent ∨ half = subscript) :
    Succeeds (doc.dropHalf e outer half exponent subscript acceptor) Resting := by
  have hf := h.formula
  obtain ⟨hlists, hne⟩ := hf.toSound.halves_ne (hf.mem_elements.mpr hp) he
  have hmem : half ∈ doc.formula.listsOf e := by simpa [hlists] using hh
  have hacc : ∀ l, acceptor = some l → exponent = l ∨ subscript = l := by
    simpa [he, Element.Filled] using hf.filled e outer hp
  have hv := Formula.Vacated.single hf.toSound ((hf.whole e outer hp).owns half hmem)
  have hsub : ∀ l ∈ [half], l ∈ doc.formula.listsOf e := by simpa using hmem
  have hlt := hf.position_lt hp
  have hlen : (doc.formula.vacate half).length outer = doc.formula.length outer :=
    by rw [Formula.length, hv.elements_outer hf hr hp hsub, Formula.length]
  -- Wherever what the half held goes in, it goes beside the scripts.
  have hinsert : ∀ x : Element, x.Filled → x.lists.Nodup →
      (∀ l, l ∈ x.lists ↔ l ∈ doc.formula.listsOf e ∧ l ∉ [half]) → ∀ pos behind,
      pos ≤ doc.formula.length outer →
      Succeeds (Document.insertElements
        { doc with formula := (doc.formula.vacate half).setElement e x } outer pos
        (doc.formula.elements half) behind) Resting := by
    intro x hx hn hxl pos behind hpos
    obtain ⟨hg, hes, hreach⟩ := hv.tidy_setElement hf hr hp hsub hx hn hxl
    refine h.insertElements hg ⟨hreach, ?_⟩ hes
    rwa [Formula.length_setElement, hlen]
  rw [← Formula.Vacated.drain_snd] at hinsert
  unfold Document.dropHalf
  obtain rfl | rfl := hh
  · simp only [↓reduceIte]
    refine hinsert (.scripts none (some subscript) _) ⟨.inr rfl, fun l hl => .inr ?_⟩
      (by simp [Element.lists]) (fun l => ?_) _ _ hlt
    · split at hl
      · exact hl
      · rename_i hne'
        exact congrArg some ((hacc l hl).resolve_left fun hc => hne' (hc ▸ hl))
    · simp only [Element.lists, hlists, Option.toList, List.mem_append, List.mem_cons,
        List.not_mem_nil]
      clear hinsert hv
      grind
  · simp only [if_neg hne]
    refine hinsert (.scripts (some exponent) none _) ⟨.inl rfl, fun l hl => .inl ?_⟩
      (by simp [Element.lists]) (fun l => ?_) _ _ (Nat.le_of_lt hlt)
    · split at hl
      · exact hl
      · rename_i hne'
        exact congrArg some ((hacc l hl).resolve_right fun hc => hne' (hc ▸ hl))
    · simp only [Element.lists, hlists, Option.toList, List.mem_append, List.mem_cons,
        List.not_mem_nil]
      clear hinsert hv
      grind

/-- An element other than scripts with two halves gives way to all it held, and the caret goes to the
beginning of what the list held. -/
theorem dissolve_eq (hf : doc.formula.Tidy) (hr : doc.formula.Reachable outer)
    (hp : doc.formula.parent e = some outer) {left right : List ListId}
    (hl : doc.formula.listsOf e = left ++ l :: right)
    (hx : ∀ exponent subscript acceptor,
      doc.formula.element e ≠ .scripts (some exponent) (some subscript) acceptor) :
    ∃ g, doc.formula.Vacated e (doc.formula.listsOf e) g
        ((doc.formula.listsOf e).flatMap doc.formula.elements) ∧
      doc.dissolve e l = .ok (Document.moveCaret { doc with formula :=
          (g.replaceRange outer (doc.formula.position e) (doc.formula.position e + 1)
            ((doc.formula.listsOf e).flatMap doc.formula.elements)).1 }
        ⟨outer, doc.formula.position e + (left.flatMap doc.formula.elements).length⟩) := by
  obtain ⟨g, hcollect, hv⟩ := Formula.Vacated.collect hf hp hl
  have hlen : g.length outer = doc.formula.length outer :=
    congrArg List.length (hv.elements_outer hf hr hp fun _ h => h)
  have hlt : doc.formula.position e + 1 ≤ g.length outer := hlen ▸ hf.position_lt hp
  have hsplice : splice { doc with formula := g } outer (doc.formula.position e)
      (doc.formula.position e + 1) ((doc.formula.listsOf e).flatMap doc.formula.elements) = _ :=
    splice_eq (Nat.le_succ _) hlt
  refine ⟨g, hv, ?_⟩
  unfold Document.dissolve
  rw [hp]
  simp only [hcollect, hsplice]
  rfl

/-- Taking an element apart from inside one of its lists succeeds. -/
theorem Resting.dissolve (h : doc.Resting) (hr : doc.formula.Reachable outer)
    (hp : doc.formula.parent e = some outer) (hl : l ∈ doc.formula.listsOf e) :
    Succeeds (doc.dissolve e l) Resting := by
  have hf := h.formula
  by_cases hx : ∃ exponent subscript acceptor,
      doc.formula.element e = .scripts (some exponent) (some subscript) acceptor
  · obtain ⟨exponent, subscript, acceptor, he⟩ := hx
    have hdissolve : doc.dissolve e l = doc.dropHalf e outer l exponent subscript acceptor := by
      unfold Document.dissolve
      rw [hp, he]
    rw [hdissolve]
    exact h.dropHalf hr hp he (by simpa [Formula.listsOf, he, Element.lists] using hl)
  · obtain ⟨left, right, hl⟩ := List.append_of_mem hl
    obtain ⟨g, hv, heq⟩ := dissolve_eq hf hr hp hl
      fun exponent subscript acceptor he => hx ⟨exponent, subscript, acceptor, he⟩
    obtain ⟨htidy, hreach⟩ := hv.tidy_replace hf hr hp fun _ h => h
    have hhas := hv.linked.hasList (hv.stays hf hr hp fun _ h => h).1
    have hlen : g.length outer = doc.formula.length outer :=
      congrArg List.length (hv.elements_outer hf hr hp fun _ h => h)
    have hlt : doc.formula.position e + 1 ≤ g.length outer := hlen ▸ hf.position_lt hp
    rw [heq]
    refine .ok (h.edit htidy ⟨hreach, ?_⟩)
    rw [Formula.length_replaceRange hhas (Nat.le_succ _) hlt, hl]
    simp only [List.flatMap_append, List.length_append]
    omega

end Dissolving

theorem Resting.deleteFrom (h : doc.Resting) (hp : doc.formula.IsPlace p) :
    Succeeds (doc.deleteFrom p d) Resting := by
  unfold Document.deleteFrom
  have hq := isPlace_deletionPlace (d := d) doc.formula.listSlots.size hp
  generalize doc.formula.deletionPlace d doc.formula.listSlots.size p = q at hq
  simp only
  split
  · rename_i i e ha
    have hlt : i < doc.formula.length q.list :=
      (List.getElem?_eq_some_iff.mp (Formula.adjacent?_eq_some.mp ha).2).1
    have hsplice : (doc.moveCaret q).splice q.list i (i + 1) [] = _ :=
      splice_eq (Nat.le_succ i) hlt
    rw [hsplice]
    exact .ok (h.edit (h.formula.replaceRange (hq.hasList h.formula) (Nat.le_succ i) .nil)
      (h.formula.isPlace_replaceRange hq.reachable (Nat.le_succ i) hlt [] (Nat.le_refl i)))
  · split
    · rename_i e ho
      have ho : doc.formula.owner q.list = some e := ho
      obtain ⟨outer, hpe, hr⟩ := h.formula.toSound.outer_of_reachable hq.reachable ho
      exact (h.moveCaret hq).dissolve hr hpe
        (h.formula.toSound.mem_listsOf_of_reachable hq.reachable ho)
    · exact .ok (h.moveCaret hq)

theorem Resting.deleteIn (h : doc.Resting) (hd : d.isVertical = false) :
    Succeeds (doc.deleteIn doc.caret.place.list d) Resting := by
  unfold Document.deleteIn
  rw [hd]
  simpa using h.deleteFrom h.caret.place

/-! ## The selection -/

/-- What deleting a selection comes to: its run goes, and the caret stands where it began. -/
theorem Valid.delete_selection (h : doc.Valid) (hs : doc.caret.selecting = true) (d : Direction) :
    ∃ s, doc.caret.selected? doc.formula = .ok (some s) ∧ s.Valid doc.formula ∧
      doc.delete d = .ok
        ({ doc with
            formula := (doc.formula.replaceRange s.list s.start s.stop []).1
            caret := .ofPlace ⟨s.list, s.start⟩ },
          doc.formula.range s.list s.start s.stop) := by
  obtain ⟨hs', -⟩ | ⟨-, s, hsel, hv⟩ := h.caret.selected? h.formula
  · simp [hs] at hs'
  · refine ⟨s, hsel, hv, ?_⟩
    rw [delete, hsel]
    simp only [bind, Except.bind, splice_eq hv.start_le hv.stop_le]
    rfl

/-- Removing a run from a valid document leaves one that rests. -/
theorem Valid.remove (h : doc.Valid) {s : Selection} (hs : s.Valid doc.formula) :
    Resting { doc with
      formula := (doc.formula.replaceRange s.list s.start s.stop []).1
      caret := .ofPlace ⟨s.list, s.start⟩ } := by
  have hl := h.formula.hasList_of_reachable hs.reachable
  exact ⟨⟨h.formula.replaceRange hl hs.start_le .nil, Caret.valid_ofPlace
    (h.formula.isPlace_replaceRange hs.reachable hs.start_le hs.stop_le [] (Nat.le_refl _))⟩, rfl⟩

/-- Deleting succeeds, and afterwards nothing is selected. -/
theorem Valid.delete (h : doc.Valid) (hd : d.isVertical = false) :
    Succeeds (doc.delete d) fun r => r.1.Resting := by
  cases hs : doc.caret.selecting with
  | true =>
    obtain ⟨s, -, hv, hdel⟩ := h.delete_selection hs d
    rw [hdel]
    exact .ok (h.remove hv)
  | false =>
    have hrest : doc.Resting := ⟨h, hs⟩
    have hsel : doc.caret.selected? doc.formula = .ok none := by
      rw [Caret.selected?, hs]
      rfl
    rw [Document.delete, hsel]
    simp only [hs]
    refine (hrest.deleteIn hd).bind fun doc' h' => ?_
    exact .ok h'

end Document

end FormulaEditor
