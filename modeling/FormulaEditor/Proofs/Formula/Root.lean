import FormulaEditor.Proofs.Formula.Snapshot

/-!
# Edits of the root

An edit of the root list leaves alone what is inside the elements of the root. Elements that stay in
the root therefore read as before, and the formula reads as its root does, element by element.
-/

namespace FormulaEditor

/-- The element planted for a node is of its kind. -/
theorem Node.kind_element {n : Node} {ls : List ListId} (h : ls.length = n.lists.length) :
    (n.element ls).kind = n.kind := by
  rcases n with _ | _ | _ | _ | _ | ⟨_ | _, _⟩ | ⟨_ | _, _ | _⟩ | _ | _ <;>
    rcases ls with _ | ⟨_, _ | ⟨_, _ | ⟨_, _⟩⟩⟩ <;>
    simp_all [Node.lists, Node.element, Element.kind, Node.kind]

namespace Formula

variable {f g h : Formula} {e : ElementId} {l : ListId} {es : List ElementId} {d start stop : Nat}
  {pending : List ElementId}

theorem Grows.retainsBelow (hg : f.Grows g) : f.RetainsBelow g :=
  ⟨hg.root, hg.hasElement, hg.hasList, hg.element, fun hl _ => hg.elements hl⟩

namespace RetainsBelow

theorem trans (hfg : f.RetainsBelow g) (hgh : g.RetainsBelow h) : f.RetainsBelow h where
  root := hgh.root.trans hfg.root
  hasElement he := hgh.hasElement (hfg.hasElement he)
  hasList hl := hgh.hasList (hfg.hasList hl)
  element he := (hgh.element (hfg.hasElement he)).trans (hfg.element he)
  elements hl hne :=
    (hgh.elements (hfg.hasList hl) (by rwa [hfg.root])).trans (hfg.elements hl hne)

theorem kind (hr : f.RetainsBelow g) (he : f.HasElement e) : g.kind e = f.kind e := by
  rw [Formula.kind, hr.element he, Formula.kind]

theorem size_listSlots (hr : f.RetainsBelow g) : f.listSlots.size ≤ g.listSlots.size := by
  by_cases hsize : f.listSlots.size = 0
  · omega
  · have hlast : f.HasList ⟨f.listSlots.size - 1⟩ := by
      show f.listSlots.size - 1 < f.listSlots.size
      omega
    have : f.listSlots.size - 1 < g.listSlots.size := hr.hasList hlast
    omega

/-- What stays in the root reads as before. -/
theorem snapshot (hr : f.RetainsBelow g) (hf : f.Sound pending) (he : e ∈ f.elements f.root) :
    g.snapshot e = f.snapshot e := by
  rw [Formula.snapshot, Formula.snapshot, hr.element (hf.hasElement he)]
  refine Element.toNode_congr fun i hi => ?_
  have hbelow : f.Below 1 f.root i := (Below.here f.root).inside he hi
  have hsize := hr.size_listSlots
  rw [snapshotList, hr.snapshotWithin hf (hf.allocated e i hi) (hf.ne_root he hi)]
  exact hf.snapshotWithin_eq hbelow (by omega) (by omega)

end RetainsBelow

/-- A formula reads as its root does, element by element. -/
theorem Sound.nodes_eq (hf : f.Sound pending) : f.nodes = (f.elements f.root).map f.snapshot := by
  have hdepth : f.nodes = f.snapshotWithin (f.listSlots.size + 1) f.root :=
    hf.snapshotWithin_eq (.here f.root) (by omega) (by omega)
  rw [hdepth, snapshotWithin_succ]
  rfl

theorem snapshot_of_kind_atom {text : String} (h : f.kind e = .atom text) :
    f.snapshot e = .atom text := by
  unfold kind at h
  unfold snapshot
  cases hx : f.element e <;> simp_all [Element.kind, Element.toNode]

theorem snapshot_eq_binary {op : BinaryOp} : f.snapshot e = .binary op ↔ f.kind e = .binary op := by
  unfold kind snapshot
  cases f.element e <;> simp [Element.kind, Element.toNode]

/-- What is planted is of the kind of the node. -/
theorem kind_plant (hf : f.Sound []) (n : Node) : (f.plant n).1.kind (f.plant n).2 = n.kind := by
  obtain ⟨ls, hls, helement⟩ := element_plant hf n
  rw [kind, helement, Node.kind_element hls]

end Formula

end FormulaEditor
