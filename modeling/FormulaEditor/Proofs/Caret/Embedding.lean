import FormulaEditor.Proofs.Caret.Selection
import FormulaEditor.Proofs.Formula.Embedding
import FormulaEditor.Proofs.Formula.Snapshot
import FormulaEditor.Proofs.Formula.Walking
import FormulaEditor.Proofs.Formula.Writing

/-!
# Places in an embedded formula

Moves, chains of places, selections, paths and the content itself are the same in a formula and in
one that it is embedded in, up to handles. What is bounded by the number of lists is bounded by
different numbers in the two; in a tidy formula the smaller number is enough, so a greater one does
not matter.
-/

namespace FormulaEditor

namespace Handles

/-- A caret under other handles. -/
def caret (r : Handles) (c : Caret) : Caret :=
  ⟨r.place c.place, c.anchor.map r.place, c.selecting⟩

/-- A selection under other handles. -/
def selection (r : Handles) (s : Selection) : Selection :=
  ⟨r.list s.list, s.start, s.stop⟩

/-- What a pointer hits, under other handles. -/
def target (r : Handles) : Caret.Target → Caret.Target
  | .list l => .list (r.list l)
  | .element e => .element (r.element e)

variable {r : Handles} {c : Caret} {p : Place} {l : ListId} {d : Direction}

@[simp] theorem place_list : (r.place p).list = r.list p.list :=
  rfl

@[simp] theorem caret_place : (r.caret c).place = r.place c.place :=
  rfl

theorem beginSelection_caret : (r.caret c).beginSelection = r.caret c.beginSelection := by
  obtain ⟨place, anchor, selecting⟩ := c
  cases selecting <;> rfl

theorem sibling?_rename {x : Element} :
    (x.rename r.list).sibling? d (r.list l) = (x.sibling? d l).map r.list := by
  unfold Element.sibling?
  rw [Element.lists_rename, idxOf?_map r.list_inj, Element.boundary?_rename]
  cases x.lists.idxOf? l with
  | none => rfl
  | some i =>
    simp only [List.getElem?_map]
    split
    · split <;> rfl
    · rfl

namespace Embeds

open Formula

variable {f g : Formula} {a : ListId} {e : ElementId} {n depth : Nat} (h : r.Embeds f g)

include h

/-! ## Moves -/

theorem endOf (l : ListId) : g.endOf (r.list l) = r.place (f.endOf l) := by
  rw [Formula.endOf, h.length]
  rfl

theorem entering (d : Direction) (l : ListId) :
    g.entering d (r.list l) = r.place (f.entering d l) := by
  unfold Formula.entering
  rw [h.endOf]
  split <;> rfl

theorem adjacent? (p : Place) (d : Direction) :
    g.adjacent? (r.place p) d = (f.adjacent? p d).map (Prod.map id r.element) := by
  have helements : g.elements (r.place p).list = (f.elements p.list).map r.element :=
    h.elements p.list
  have hindex : adjacentIndex? (r.place p) d = adjacentIndex? p d := rfl
  unfold Formula.adjacent?
  rw [helements, hindex]
  cases adjacentIndex? p d with
  | none => rfl
  | some i =>
    simp only [Option.bind_eq_bind, Option.bind_some, List.getElem?_map]
    cases (f.elements p.list)[i]? <;> rfl

theorem boundary? (e : ElementId) (d : Direction) :
    (g.element (r.element e)).boundary? d = ((f.element e).boundary? d).map r.list := by
  rw [h.element, Element.boundary?_rename]

theorem leave? (p : Place) (d : Direction) :
    g.leave? (r.place p) d = (f.leave? p d).map (Option.map r.place) := by
  unfold Formula.leave?
  rw [place_list, h.owner]
  cases f.owner p.list with
  | none => rfl
  | some e =>
    simp only [Option.map_some, h.element, sibling?_rename]
    cases (f.element e).sibling? d p.list with
    | some sibling => simp [h.entering, Except.map]
    | none =>
      simp only [Option.map_none, h.parent, h.position]
      cases f.parent e <;> rfl

theorem step? (p : Place) (d : Direction) :
    g.step? (r.place p) d = (f.step? p d).map (Option.map r.place) := by
  unfold Formula.step?
  rw [h.adjacent?, h.leave?]
  split
  · rfl
  · cases f.adjacent? p d with
    | none => rfl
    | some x =>
      simp only [Option.map_some, Prod.map, h.boundary?]
      cases (f.element x.2).boundary? d with
      | some inner => simp [h.entering, Except.map]
      | none => rfl

theorem move (c : Caret) (d : Direction) (select : Bool) :
    (r.caret c).move g d select = (c.move f d select).map (Prod.map r.caret id) := by
  have hc : (if select then (r.caret c).beginSelection else (r.caret c).cancel) =
      r.caret (if select then c.beginSelection else c.cancel) := by
    rw [beginSelection_caret]
    split <;> rfl
  unfold Caret.move
  simp only [hc]
  generalize (if select then c.beginSelection else c.cancel) = c
  change (g.step? (r.place c.place) d >>= _) = _
  rw [h.step?]
  cases f.step? c.place d with
  | error => rfl
  | ok next => cases next <;> rfl

theorem point (c : Caret) (target : Caret.Target) (side : Direction) (drag : Bool) :
    (r.caret c).point g (r.target target) side drag = r.caret (c.point f target side drag) := by
  have hc : (if drag then (r.caret c).beginSelection else (r.caret c).cancel) =
      r.caret (if drag then c.beginSelection else c.cancel) := by
    rw [beginSelection_caret]
    split <;> rfl
  unfold Caret.point
  simp only [hc]
  generalize (if drag then c.beginSelection else c.cancel) = c
  cases target with
  | list l =>
    simp only [Handles.target, h.endOf]
    split <;> rfl
  | element e =>
    simp only [Handles.target, h.parent, h.position]
    cases f.parent e <;> rfl

theorem selectAll : Caret.selectAll g = r.caret (Caret.selectAll f) := by
  rw [Caret.selectAll, h.root, h.endOf]
  rfl

/-! ## Selections -/

theorem enclosingWithin (p : Place) (depth : Nat) :
    g.enclosingWithin depth (r.place p) = (f.enclosingWithin depth p).map (List.map r.place) := by
  induction depth generalizing p with
  | zero => rfl
  | succ depth ih =>
    unfold Formula.enclosingWithin
    rw [place_list, h.owner]
    cases f.owner p.list with
    | none => rfl
    | some e =>
      simp only [Option.map_some, h.parent, h.position]
      cases f.parent e with
      | none => rfl
      | some outer =>
        have hrest := ih ⟨outer, f.position e⟩
        simp only [Handles.place] at hrest
        simp only [Option.map_some, hrest]
        cases f.enclosingWithin depth ⟨outer, f.position e⟩ <;> rfl

theorem enclosing (hf : f.Tidy) {p : Place} (hp : f.Reachable p.list) :
    g.enclosing (r.place p) = (f.enclosing p).map (List.map r.place) := by
  obtain ⟨n, hn⟩ := hp
  have hlt := hf.toSound.depth_lt hn
  -- The second formula stores more lists and so allows for climbing further than is needed.
  have hdeep : f.enclosingWithin g.listSlots.size p = f.enclosingWithin f.listSlots.size p :=
    hf.enclosingWithin_congr hn (fun _ _ => rfl) (fun _ => rfl) (fun _ => rfl) hlt
      (Nat.lt_of_lt_of_le hlt h.size_listSlots_le)
  rw [Formula.enclosing, h.enclosingWithin, hdeep, Formula.enclosing]

omit h in
theorem meet?_map (deeper : Bool) (others places : List Place) :
    meet? deeper (others.map r.place) (places.map r.place) =
      (meet? deeper others places).map (Prod.map r.list id) := by
  induction places generalizing deeper with
  | nil => rfl
  | cons p places ih =>
    have hsame : ((fun q : Place => decide (q.list = (r.place p).list)) ∘ r.place) =
        fun q => decide (q.list = p.list) := by
      funext q
      exact decide_eq_decide.mpr list_eq_iff
    simp only [List.map_cons, meet?, List.findIdx?_map, List.find?_map, hsame]
    cases others.findIdx? fun q => q.list = p.list <;>
      cases others.find? fun q => q.list = p.list <;> simp [ih, Handles.place]

theorem selection? (hf : f.Tidy) {c : Caret} (hc : c.Valid f) :
    (r.caret c).selection? g = (c.selection? f).map (Option.map r.selection) := by
  unfold Caret.selection?
  cases ha : c.anchor with
  | none => simp [Handles.caret, ha, Except.map]
  | some anchor =>
    have hplace := h.enclosing hf hc.place.reachable
    have hanchor := h.enclosing hf (hc.anchor anchor ha).reachable
    simp only [Handles.caret, ha, Option.map_some, hplace, hanchor]
    cases f.enclosing c.place with
    | error => rfl
    | ok places =>
      cases f.enclosing anchor with
      | error => rfl
      | ok others =>
        simp only [Except.map, bind, Except.bind, meet?_map]
        cases meet? false others places <;> rfl

theorem selected? (hf : f.Tidy) {c : Caret} (hc : c.Valid f) :
    (r.caret c).selected? g = (c.selected? f).map (Option.map r.selection) := by
  unfold Caret.selected?
  rw [h.selection? hf hc]
  change (if c.selecting then _ else _) = _
  split <;> rfl

/-! ## Content -/

theorem snapshotWithin (l : ListId) (depth : Nat) :
    g.snapshotWithin depth (r.list l) = f.snapshotWithin depth l := by
  induction depth generalizing l with
  | zero => rfl
  | succ depth ih =>
    have hread : g.snapshotWithin depth ∘ r.list = f.snapshotWithin depth := funext ih
    simp [Formula.snapshotWithin, h.elements, h.element, hread, Function.comp_def]

theorem snapshotList (hf : f.Tidy) (hl : f.Reachable l) :
    g.snapshotList (r.list l) = f.snapshotList l := by
  obtain ⟨n, hn⟩ := hl
  have hsize := h.size_listSlots_le
  rw [Formula.snapshotList, h.snapshotWithin, Formula.snapshotList]
  exact hf.toSound.snapshotWithin_eq hn (by omega) (by omega)

theorem nodes (hf : f.Tidy) : g.nodes = f.nodes := by
  rw [Formula.nodes, h.root, h.snapshotList hf reachable_root, Formula.nodes]

theorem tex (hf : f.Tidy) : g.tex = f.tex := by
  rw [Formula.tex_eq, h.nodes hf, Formula.tex_eq]

theorem snapshot (hf : f.Tidy) (hl : f.Reachable l) (he : e ∈ f.elements l) :
    g.snapshot (r.element e) = f.snapshot e := by
  rw [Formula.snapshot, h.element, Element.toNode_rename, Formula.snapshot]
  exact Element.toNode_congr fun i hi => h.snapshotList hf (hl.inside he hi)

theorem elementRange (l : ListId) (start stop : Nat) : g.elementRange (r.list l) start stop =
    (f.elementRange l start stop).map (List.map r.element) := by
  unfold Formula.elementRange
  rw [h.length, h.elements, ← List.map_drop, ← List.map_take]
  split <;> rfl

theorem selectedElements (hf : f.Tidy) {c : Caret} (hc : c.Valid f) :
    (r.caret c).selectedElements g = (c.selectedElements f).map (List.map r.element) := by
  unfold Caret.selectedElements
  rw [h.selected? hf hc]
  obtain ⟨-, hnone⟩ | ⟨-, s, hsome, -⟩ := hc.selected? hf
  · rw [hnone]
    rfl
  · rw [hsome]
    exact h.elementRange s.list s.start s.stop

theorem selectedNodes (hf : f.Tidy) {c : Caret} (hc : c.Valid f) :
    (r.caret c).selectedNodes g = c.selectedNodes f := by
  obtain ⟨es, hes, hmem⟩ := hc.selectedElements hf
  have hread : (es.map r.element).map g.snapshot = es.map f.snapshot := by
    rw [List.map_map]
    refine List.map_congr_left fun e he => ?_
    obtain ⟨l, hl, he⟩ := hmem e he
    exact h.snapshot hf hl he
  rw [Caret.selectedNodes, h.selectedElements hf hc, Caret.selectedNodes, hes]
  exact congrArg Except.ok hread

theorem copy (hf : f.Tidy) {c : Caret} (hc : c.Valid f) : (r.caret c).copy g = c.copy f := by
  rw [Caret.copy_eq, h.selectedNodes hf hc, Caret.copy_eq]

/-! ## Paths -/

theorem listFrom? (l : ListId) (path : Path) :
    g.listFrom? (r.list l) path = (f.listFrom? l path).map r.list := by
  induction l, path using Formula.listFrom?.induct with
  | case1 l => rfl
  | case2 l i => rfl
  | case3 l i j path ih =>
    simp only [Formula.listFrom?, Option.bind_eq_bind, h.elements, List.getElem?_map]
    cases (f.elements l)[i]? with
    | none => rfl
    | some e =>
      simp only [Option.map_some, Option.bind_some, h.listsOf, List.getElem?_map]
      cases (f.listsOf e)[j]? with
      | none => rfl
      | some inner => exact ih inner

theorem listAt? (path : Path) : g.listAt? path = (f.listAt? path).map r.list := by
  rw [Formula.listAt?, h.root, h.listFrom?, Formula.listAt?]

theorem elementAt? (path : Path) : g.elementAt? path = (f.elementAt? path).map r.element := by
  unfold Formula.elementAt?
  rw [h.listAt?]
  cases path.getLast? with
  | none => rfl
  | some i =>
    cases f.listAt? path.dropLast with
    | none => rfl
    | some l => simp [h.elements]

theorem pathWithin? (l : ListId) (depth : Nat) :
    g.pathWithin? depth (r.list l) = f.pathWithin? depth l := by
  induction depth generalizing l with
  | zero => rfl
  | succ depth ih =>
    unfold Formula.pathWithin?
    simp only [h.root, list_eq_iff, h.owner]
    split
    · rfl
    · cases f.owner l with
      | none => rfl
      | some e =>
        simp only [Option.map_some, Option.bind_eq_bind, Option.bind_some, h.parent, h.position,
          h.listsOf, idxOf?_map r.list_inj]
        cases f.parent e with
        | none => rfl
        | some outer => simp [ih]

theorem pathTo? (hf : f.Tidy) (hl : f.Reachable l) : g.pathTo? (r.list l) = f.pathTo? l := by
  obtain ⟨n, hn⟩ := hl
  have hlt := hf.toSound.depth_lt hn
  rw [Formula.pathTo?, h.pathWithin?, Formula.pathTo?]
  exact hf.toSound.pathWithin?_eq hn (Nat.lt_of_lt_of_le hlt h.size_listSlots_le) hlt

/-! ## Walks -/

theorem listsWithin (l : ListId) (depth : Nat) :
    g.listsWithin depth (r.list l) = (f.listsWithin depth l).map r.list := by
  induction depth generalizing l with
  | zero => rfl
  | succ depth ih =>
    simp only [Formula.listsWithin, h.elements, h.listsOf, List.flatMap_map, ih, List.map_cons,
      List.map_flatMap]

theorem elementsWithin (l : ListId) (depth : Nat) :
    g.elementsWithin depth (r.list l) = (f.elementsWithin depth l).map r.element := by
  induction depth generalizing l with
  | zero => rfl
  | succ depth ih =>
    simp only [Formula.elementsWithin, h.elements, h.listsOf, List.flatMap_map, ih,
      List.map_flatMap, List.map_cons]

theorem allLists (hf : f.Tidy) : g.allLists = f.allLists.map r.list := by
  have hsize := h.size_listSlots_le
  rw [Formula.allLists, h.root, h.listsWithin, Formula.allLists]
  exact congrArg _ (hf.toSound.listsWithin_eq (.here _) (by omega) (by omega))

theorem allElements (hf : f.Tidy) : g.allElements = f.allElements.map r.element := by
  have hsize := h.size_listSlots_le
  rw [Formula.allElements, h.root, h.elementsWithin, Formula.allElements]
  exact congrArg _ (hf.toSound.elementsWithin_eq (.here _) (by omega) (by omega))

end Embeds

end Handles

end FormulaEditor
