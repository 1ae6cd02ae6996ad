import FormulaEditor.Proofs.Caret.Embedding
import FormulaEditor.Proofs.Document.Clipboard
import FormulaEditor.Proofs.Document.Insert

/-!
# Edits of embedded documents

A document is carried by another one when its formula is embedded there and the carets stand at the
same place. Every edit of the two gives documents of which the first is carried by the second again,
and hands out the same. Edits that look at how deep something lies need the first document to be
valid.
-/

namespace FormulaEditor

/-- Two loops over corresponding lists keep what each step of them keeps. -/
theorem foldl_related {α β γ δ : Type} {R : α → β → Prop} {k : γ → δ} {step : α → γ → α}
    {step' : β → δ → β} (hstep : ∀ a b c, R a b → R (step a c) (step' b (k c))) {a : α} {b : β}
    (h : R a b) (cs : List γ) : R (cs.foldl step a) ((cs.map k).foldl step' b) := by
  induction cs generalizing a b with
  | nil => exact h
  | cons c cs ih => exact ih (hstep a b c h)

/-- A deletion that may enter as many elements as there are lists ends where any that may enter more
does. -/
theorem Formula.Sound.deletionPlace_eq {f : Formula} {pending : List ElementId} {p : Place}
    {d : Direction} {n depth depth' : Nat} (hf : f.Sound pending) (hn : f.Below n f.root p.list)
    (hd : f.listSlots.size ≤ n + depth) (hd' : f.listSlots.size ≤ n + depth') :
    f.deletionPlace d depth p = f.deletionPlace d depth' p := by
  have hlt := hf.depth_lt hn
  -- With every element entered the place lies one list deeper, so neither bound is ever reached.
  induction depth generalizing n p depth' with
  | zero => omega
  | succ depth ih =>
    obtain ⟨depth', rfl⟩ : ∃ k, depth' = k + 1 := ⟨depth' - 1, by omega⟩
    unfold Formula.deletionPlace
    split
    · rename_i inner h
      obtain ⟨⟨i, e⟩, ha, hb⟩ := Option.bind_eq_some_iff.mp h
      have he := List.mem_of_getElem? (adjacent?_eq_some.mp ha).2
      have hinner : f.Below (n + 1) f.root (f.entering d inner).list := by
        have := hn.inside he (mem_lists_of_boundary? hb)
        unfold entering
        split <;> exact this
      exact ih hinner (by omega) (by omega) (hf.depth_lt hinner)
    · rfl

namespace Handles

/-- The second document is the first one under other handles, and may store more. -/
structure Carries (r : Handles) (doc doc' : Document) : Prop where
  formula : r.Embeds doc.formula doc'.formula
  caret : doc'.caret = r.caret doc.caret
  convertsWords : doc'.convertsWords = doc.convertsWords

/-- Two formulas of which lists have been emptied, with what these held, correspond. -/
def Collects (r : Handles) (x y : Formula × List ElementId × Nat) : Prop :=
  r.Embeds x.1 y.1 ∧ y.2 = Prod.map (List.map r.element) id x.2

variable {r : Handles} {doc doc' : Document} {p : Place} {l : ListId} {e : ElementId}
  {es : List ElementId} {d : Direction}

/-! ## Reading and emptying lists -/

namespace Embeds

open Formula

variable {f g : Formula} (h : r.Embeds f g)

include h

theorem deletionPlace (p : Place) (d : Direction) (depth : Nat) :
    g.deletionPlace d depth (r.place p) = r.place (f.deletionPlace d depth p) := by
  induction depth generalizing p with
  | zero => rfl
  | succ depth ih =>
    unfold Formula.deletionPlace
    rw [h.adjacent?]
    cases f.adjacent? p d with
    | none => rfl
    | some x =>
      simp only [Option.map_some, Option.bind_some, Prod.map, h.boundary?]
      cases (f.element x.2).boundary? d with
      | none => rfl
      | some inner =>
        simp only [Option.map_some, h.entering]
        exact ih (f.entering d inner)

theorem collect (caller : ListId) (ls : List ListId) :
    r.Collects (f.collect caller ls) (g.collect (r.list caller) (ls.map r.list)) := by
  refine foldl_related (R := r.Collects) ?_ ⟨h, rfl⟩ ls
  rintro ⟨f, contents, offset⟩ ⟨g, _, _⟩ l ⟨hembeds, ⟨⟩⟩
  obtain ⟨hdrain, hdrained⟩ := hembeds.drain l
  refine ⟨hdrain.disown l, ?_⟩
  simp only [hdrained, list_eq_iff, Prod.map, List.map_append, List.length_map, id_eq]

theorem textRun (l : ListId) (pos : Nat) : g.textRun (r.list l) pos = f.textRun l pos := by
  have htext : g.isText ∘ r.element = f.isText := by
    funext e
    simp only [Function.comp, Formula.isText, h.kind]
  unfold Formula.textRun
  simp only [h.length, h.elements, ← List.map_take, ← List.map_drop, ← List.map_reverse,
    List.takeWhile_map, htext, List.length_map]

/-- The texts of a run of elements. -/
theorem texts (l : ListId) (start stop : Nat) :
    (((g.elements (r.list l)).drop start).take stop).filterMap (fun e => (g.kind e).text?) =
      (((f.elements l).drop start).take stop).filterMap fun e => (f.kind e).text? := by
  simp only [h.elements, ← List.map_take, ← List.map_drop, List.filterMap_map, Function.comp_def,
    h.kind]

end Embeds

namespace Carries

open Document

variable (h : r.Carries doc doc')

include h

/-! ## The caret -/

theorem setFormula {f g : Formula} (hfg : r.Embeds f g) :
    r.Carries { doc with formula := f } { doc' with formula := g } :=
  ⟨hfg, h.caret, h.convertsWords⟩

theorem setCaret {c c' : Caret} (hc : c' = r.caret c) :
    r.Carries { doc with caret := c } { doc' with caret := c' } :=
  ⟨h.formula, hc, h.convertsWords⟩

theorem caret_place : doc'.caret.place = r.place doc.caret.place := by
  rw [h.caret]
  rfl

theorem selecting : doc'.caret.selecting = doc.caret.selecting := by
  rw [h.caret]
  rfl

theorem moveCaret (p : Place) : r.Carries (doc.moveCaret p) (doc'.moveCaret (r.place p)) :=
  h.setCaret (by rw [h.caret]; rfl)

theorem cancelSelection : r.Carries doc.cancelSelection doc'.cancelSelection :=
  h.setCaret (by rw [h.caret]; rfl)

theorem selectAll : r.Carries doc.selectAll doc'.selectAll :=
  h.setCaret h.formula.selectAll

theorem point (target : Caret.Target) (side : Direction) (drag : Bool) :
    r.Carries (doc.point target side drag) (doc'.point (r.target target) side drag) := by
  refine h.setCaret ?_
  rw [h.caret, h.formula.point]

theorem move (d : Direction) (select : Bool) :
    Parallel (fun x y => r.Carries x.1 y.1 ∧ y.2 = x.2) (doc.move d select) (doc'.move d select) := by
  have hmove := h.formula.move doc.caret d select
  rw [← h.caret] at hmove
  refine (Parallel.of_map hmove).bind ?_
  rintro ⟨c, moved⟩ _ - rfl
  exact .ok ⟨h.setCaret rfl, rfl⟩

theorem selected? (hv : doc.Valid) : doc'.caret.selected? doc'.formula =
    (doc.caret.selected? doc.formula).map (Option.map r.selection) := by
  rw [h.caret, h.formula.selected? hv.formula hv.caret]

theorem copy (hv : doc.Valid) : doc'.copy = doc.copy := by
  rw [Document.copy, h.caret, h.formula.copy hv.formula hv.caret, Document.copy]

/-! ## Replacing runs -/

theorem splice (l : ListId) (start stop : Nat) (es : List ElementId) :
    Parallel (fun x y => r.Carries x.1 y.1 ∧ y.2 = x.2.map r.element) (doc.splice l start stop es)
      (doc'.splice (r.list l) start stop (es.map r.element)) := by
  unfold Document.splice Formula.splice
  rw [h.formula.length]
  split
  · exact .ok ⟨h.setFormula (h.formula.replaceRange l start stop es),
      h.formula.range l start stop⟩
  · exact .error _

theorem insertElements (l : ListId) (pos : Nat) (es : List ElementId) (behind : Bool) :
    Parallel r.Carries (doc.insertElements l pos es behind)
      (doc'.insertElements (r.list l) pos (es.map r.element) behind) := by
  refine (h.splice l pos pos es).bind ?_
  rintro ⟨d₁, _⟩ ⟨d₂, _⟩ - ⟨hd, -⟩
  rw [List.length_map]
  exact .ok (hd.moveCaret _)

theorem plant (n : Node) :
    r.Carries (doc.plant n).1 (doc'.plant n).1 ∧ (doc'.plant n).2 = r.element (doc.plant n).2 := by
  obtain ⟨hplant, he⟩ := Embeds.planted.1 n h.formula
  exact ⟨h.setFormula hplant, he⟩

/-! ## Deleting -/

theorem dropHalf (e : ElementId) (outer half exponent subscript : ListId)
    (acceptor : Option ListId) :
    Parallel r.Carries (doc.dropHalf e outer half exponent subscript acceptor)
      (doc'.dropHalf (r.element e) (r.list outer) (r.list half) (r.list exponent)
        (r.list subscript) (acceptor.map r.list)) := by
  obtain ⟨hdrain, hdrained⟩ := h.formula.drain half
  have hacceptor : acceptor.map r.list = some (r.list half) ↔ acceptor = some half := by
    cases acceptor <;> simp [list_eq_iff]
  unfold Document.dropHalf
  simp only [list_eq_iff, hacceptor, h.formula.position, hdrained]
  by_cases hfrom : exponent = half
  · have hset := (hdrain.disown half).setElement e
      (.scripts none (some subscript) (if acceptor = some half then some subscript else acceptor))
    simp only [hfrom, ↓reduceIte]
    refine Carries.insertElements (h.setFormula ?_) _ _ _ _
    convert hset using 2
    split <;> rfl
  · have hset := (hdrain.disown half).setElement e
      (.scripts (some exponent) none (if acceptor = some half then some exponent else acceptor))
    simp only [hfrom, ↓reduceIte]
    refine Carries.insertElements (h.setFormula ?_) _ _ _ _
    convert hset using 2
    split <;> rfl

/-- What has been collected from the lists of an element goes in the element's place. -/
theorem takeApart {x y : Formula × List ElementId × Nat} (hxy : r.Collects x y) (outer : ListId)
    (index : Nat) :
    Parallel r.Carries
      (do
        let (d, _) ← Document.splice { doc with formula := x.1 } outer index (index + 1) x.2.1
        .ok (d.moveCaret ⟨outer, index + x.2.2⟩))
      (do
        let (d, _) ← Document.splice { doc' with formula := y.1 } (r.list outer) index (index + 1)
          y.2.1
        .ok (d.moveCaret ⟨r.list outer, index + y.2.2⟩)) := by
  obtain ⟨hformula, hcontents⟩ := hxy
  simp only [hcontents]
  refine ((h.setFormula hformula).splice outer _ _ _).bind ?_
  rintro ⟨d₁, _⟩ ⟨d₂, _⟩ - ⟨hd, -⟩
  exact .ok (hd.moveCaret _)

theorem dissolve (e : ElementId) (caller : ListId) :
    Parallel r.Carries (doc.dissolve e caller) (doc'.dissolve (r.element e) (r.list caller)) := by
  unfold Document.dissolve
  rw [h.formula.parent, h.formula.element]
  cases doc.formula.parent e with
  | none => exact .ok h
  | some outer =>
    rcases doc.formula.element e with _ | _ | _ | _ | _ | ⟨_ | _, _⟩ | ⟨_ | _, _ | _, acceptor⟩ |
      _ | _
    case scripts.some.some exponent subscript =>
      exact h.dropHalf e outer caller exponent subscript acceptor
    all_goals
      simp only [Option.map_some, Element.rename, Option.map_none, h.formula.position]
      exact h.takeApart (h.formula.collect caller _) outer _

theorem deleteFrom (hv : doc.Valid) {p : Place} (hp : doc.formula.Reachable p.list)
    (d : Direction) : Parallel r.Carries (doc.deleteFrom p d) (doc'.deleteFrom (r.place p) d) := by
  obtain ⟨n, hn⟩ := hp
  have hsize := h.formula.size_listSlots_le
  -- The second document stores more lists and so allows for entering more elements.
  have hdeep : doc.formula.deletionPlace d doc'.formula.listSlots.size p =
      doc.formula.deletionPlace d doc.formula.listSlots.size p :=
    hv.formula.toSound.deletionPlace_eq hn (by omega) (by omega)
  unfold Document.deleteFrom
  rw [h.formula.deletionPlace, hdeep]
  generalize doc.formula.deletionPlace d doc.formula.listSlots.size p = p
  have hmove := h.moveCaret p
  have howner : (doc'.moveCaret (r.place p)).formula.owner (r.place p).list = _ :=
    hmove.formula.owner p.list
  simp only [hmove.formula.adjacent?, howner]
  cases (doc.moveCaret p).formula.adjacent? p d with
  | some x =>
    refine (hmove.splice p.list x.1 (x.1 + 1) []).bind ?_
    rintro ⟨d₁, _⟩ ⟨d₂, _⟩ - ⟨hd, -⟩
    exact .ok (hd.moveCaret _)
  | none =>
    cases (doc.moveCaret p).formula.owner p.list with
    | none => exact .ok hmove
    | some e => exact hmove.dissolve e p.list

theorem deleteIn (hv : doc.Valid) (d : Direction) :
    Parallel r.Carries (doc.deleteIn doc.caret.place.list d)
      (doc'.deleteIn doc'.caret.place.list d) := by
  unfold Document.deleteIn
  split
  · exact .error _
  · simp only [↓reduceIte, h.caret_place]
    exact h.deleteFrom hv hv.caret.place.reachable d

theorem delete (hv : doc.Valid) (d : Direction) :
    Parallel (fun x y => r.Carries x.1 y.1 ∧ y.2 = x.2.map r.element) (doc.delete d)
      (doc'.delete d) := by
  refine (Parallel.of_map (h.selected? hv)).bind ?_
  rintro selected _ - rfl
  cases selected with
  | some s =>
    refine (h.splice s.list s.start s.stop []).bind ?_
    rintro ⟨d₁, removed⟩ ⟨d₂, _⟩ - ⟨hd, rfl⟩
    exact .ok ⟨(hd.moveCaret _).cancelSelection, rfl⟩
  | none =>
    have hcancel : ∃ d₁ d₂, r.Carries d₁ d₂ ∧ d₁.Valid ∧
        (if doc.caret.selecting then doc.cancelSelection else doc) = d₁ ∧
        (if doc'.caret.selecting then doc'.cancelSelection else doc') = d₂ := by
      rw [h.selecting]
      split
      · exact ⟨_, _, h.cancelSelection, hv.cancelSelection.toValid, rfl, rfl⟩
      · exact ⟨_, _, h, hv, rfl, rfl⟩
    obtain ⟨d₁, d₂, hd, hvalid, hd₁, hd₂⟩ := hcancel
    simp only [Option.map_none, hd₁, hd₂]
    refine (hd.deleteIn hvalid d).bind ?_
    intro _ _ _ hdeleted
    exact .ok ⟨hdeleted, rfl⟩

/-! ## Words -/

theorem convertWords (l : ListId) :
    Parallel r.Carries (doc.convertWords l) (doc'.convertWords (r.list l)) := by
  have hpos : doc'.caret.place.pos = doc.caret.place.pos := by
    rw [h.caret_place]
    rfl
  unfold Document.convertWords
  simp only [h.formula.textRun, hpos, h.formula.texts]
  refine (Parallel.refl _).bind ?_
  rintro ⟨left, right⟩ _ - rfl
  simp only
  split
  · exact .ok h
  · rename_i first hfirst
    generalize (List.drop first _).map Node.ofWord = nodes
    obtain ⟨hplant, hes⟩ := Embeds.planted.2 nodes h.formula
    rw [hes]
    refine ((h.setFormula hplant).splice l _ _ _).bind ?_
    rintro ⟨d₁, _⟩ ⟨d₂, _⟩ - ⟨hd, -⟩
    generalize (doc.formula.plantAll nodes).2 = planted
    have hopening : ((planted.map r.element).head?.bind fun changed =>
        (d₂.formula.element changed).opening?) =
        (planted.head?.bind fun changed => (d₁.formula.element changed).opening?).map r.list := by
      cases planted with
      | nil => rfl
      | cons e es => simp [hd.formula.element]
    simp only [hopening]
    cases planted.head?.bind fun changed => (d₁.formula.element changed).opening? with
    | some entry => exact .ok (hd.moveCaret _)
    | none =>
      refine ((hd.moveCaret _).move .right false).bind ?_
      rintro ⟨d₁, _⟩ ⟨d₂, _⟩ - ⟨hd, -⟩
      exact .ok hd

end Carries

end Handles

end FormulaEditor
