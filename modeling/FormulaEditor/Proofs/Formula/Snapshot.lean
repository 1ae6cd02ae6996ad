import FormulaEditor.Proofs.Formula.Splicing
import FormulaEditor.Proofs.Formula.Additions

/-!
# Reading a formula back

A list reads the same at every depth that is large enough, and what is read has no letters in
italics. A formula made of nodes therefore reads as these nodes, their letters out of italics.
-/

namespace FormulaEditor

/-- An element whose lists have no letters in italics has none itself. -/
theorem Element.upright_toNode {x : Element} {read : ListId → List Node}
    (h : ∀ l ∈ x.lists, Node.uprightAll (read l) = read l) :
    (x.toNode read).upright = x.toNode read := by
  rcases x with _ | _ | _ | _ | _ | ⟨_ | _, _⟩ | ⟨_ | _, _ | _, _⟩ | _ | _ <;>
    simp_all [Element.lists, Element.toNode, Node.upright, Node.uprightAll, Node.respelled]

namespace Formula

variable {f g : Formula} {l : ListId} {es : List ElementId} {d d' n start stop : Nat}
  {pending : List ElementId}

/-- From some depth on the elements read as the nodes. -/
def Spells (f : Formula) (es : List ElementId) (ns : List Node) : Prop :=
  ∃ d, ∀ d' ≥ d, es.map (f.spelled d') = ns

/-- What is planted reads as the nodes, letters out of italics. -/
theorem spells_plantAll (f : Formula) (ns : List Node) :
    (f.plantAll ns).1.Spells (f.plantAll ns).2 (Node.uprightAll ns) :=
  ⟨(f.plantAll ns).1.listSlots.size, fun d' hd => (brings.2 ns f).reads d' (by omega)⟩

/-! ## Whole formulas -/

/-- Lists of a formula read the same at all depths that reach their end. -/
theorem Sound.snapshotWithin_eq (hf : f.Sound pending) (hn : f.Below n f.root l)
    (hd : f.listSlots.size ≤ n + d) (hd' : f.listSlots.size ≤ n + d') :
    f.snapshotWithin d l = f.snapshotWithin d' l := by
  induction d generalizing n l d' with
  | zero =>
    have := hf.depth_lt hn
    omega
  | succ d ih =>
    cases d' with
    | zero =>
      have := hf.depth_lt hn
      omega
    | succ d' =>
      refine List.map_congr_left fun e he => Element.toNode_congr fun i hi => ?_
      exact ih (hn.inside he hi) (by omega) (by omega)

/-- What a formula reads as has no letters in italics. -/
theorem uprightAll_snapshotWithin :
    Node.uprightAll (f.snapshotWithin d l) = f.snapshotWithin d l := by
  induction d generalizing l with
  | zero => rfl
  | succ d ih =>
    rw [snapshotWithin_succ]
    generalize f.elements l = es
    induction es with
    | nil => rfl
    | cons e es ihes =>
      refine congrArg₂ List.cons ?_ ihes
      exact Element.upright_toNode fun i _ => ih

theorem upright_snapshot (f : Formula) (e : ElementId) : (f.snapshot e).upright = f.snapshot e :=
  Element.upright_toNode fun _ _ => uprightAll_snapshotWithin

/-- The second formula has the content of the first one, but for what stands in the root itself. -/
structure RetainsBelow (f g : Formula) : Prop where
  root : g.root = f.root
  hasElement : ∀ {e}, f.HasElement e → g.HasElement e
  hasList : ∀ {l}, f.HasList l → g.HasList l
  element : ∀ {e}, f.HasElement e → g.element e = f.element e
  elements : ∀ {l}, f.HasList l → l ≠ f.root → g.elements l = f.elements l

theorem retainsBelow_replaceRange (hl : f.HasList f.root) :
    f.RetainsBelow (f.replaceRange f.root start stop es).1 where
  root := root_replaceRange
  hasElement he := by simpa [HasElement] using he
  hasList hl := by simpa [HasList] using hl
  element _ := element_replaceRange
  elements _ hne := by rw [elements_replaceRange hl, if_neg (Ne.symm hne)]

/-- Only the root may read differently. -/
theorem RetainsBelow.snapshotWithin (hr : f.RetainsBelow g) (hf : f.Sound pending)
    (hl : f.HasList l) (hne : l ≠ f.root) : g.snapshotWithin d l = f.snapshotWithin d l :=
  snapshotWithin_congr (P := fun l => f.HasList l ∧ l ≠ f.root)
    (fun _ hl => ⟨hr.elements hl.1 hl.2, fun e he => ⟨hr.element (hf.hasElement he),
      fun i hi => ⟨hf.allocated e i hi, hf.ne_root he hi⟩⟩⟩) ⟨hl, hne⟩

/-- A formula made of nodes reads as the nodes, letters out of italics. -/
theorem nodes_ofNodes (ns : List Node) : (ofNodes ns).nodes = Node.uprightAll ns := by
  have hp := planted.2 ns empty [] Tidy.empty.toSound (by simp)
  obtain ⟨d, hd⟩ := spells_plantAll empty ns
  have hsound := hp.sound.replaceRange hp.sound.root_hasList (Nat.le_refl 0) hp.loose hp.whole
  have hroot : (empty.plantAll ns).1.elements (empty.plantAll ns).1.root = [] := by
    rw [hp.grows.root, hp.grows.elements Tidy.empty.root_hasList]
    rfl
  have helements : (ofNodes ns).elements (ofNodes ns).root = (empty.plantAll ns).2 := by
    rw [ofNodes, root_replaceRange, elements_replaceRange hp.sound.root_hasList, if_pos rfl]
    simp [replaced, hroot]
  have hdeep : (ofNodes ns).nodes =
      (ofNodes ns).snapshotWithin (max d (ofNodes ns).listSlots.size + 1) (ofNodes ns).root :=
    hsound.snapshotWithin_eq (.here _) (by simp [ofNodes]) (by simp only [ofNodes]; omega)
  rw [hdeep, snapshotWithin_succ, helements, ← hd (max d (ofNodes ns).listSlots.size) (by omega)]
  refine List.map_congr_left fun e he => ?_
  rw [spelled, spelled, ofNodes, element_replaceRange]
  have hretains : (empty.plantAll ns).1.RetainsBelow (ofNodes ns) :=
    retainsBelow_replaceRange hp.sound.root_hasList
  refine Element.toNode_congr fun i hi =>
    hretains.snapshotWithin hp.sound (hp.sound.allocated e i hi) ?_
  rintro rfl
  simpa [hp.sound.root_owner] using (hp.whole e he).owns _ hi

end Formula

end FormulaEditor
