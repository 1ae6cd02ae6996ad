import FormulaEditor.Proofs.Formula.Snapshot

/-!
# What a formula stores

Edits move elements about, but hardly any of them changes an element or brings in a new one.
Whatever holds of every stored element therefore holds after most edits at once; planting and
exchanging an element have to answer for what they bring in.
-/

namespace FormulaEditor

/-- The lists of an element are read as the lists of its node. -/
theorem Element.lists_toNode {x : Element} {read : ListId → List Node} :
    (x.toNode read).lists = x.lists.map read := by
  rcases x with _ | _ | _ | _ | _ | ⟨_ | _, _⟩ | ⟨_ | _, _ | _, _⟩ | _ | _ <;> rfl

namespace Formula

variable {P : Element → Prop} {f g : Formula} {e : ElementId} {l : ListId} {x : Element}
  {es pending : List ElementId} {start stop : Nat}

/-- Every element of the store is as said, in a list or not, except those under construction. -/
structure Stores (P : Element → Prop) (pending : List ElementId) (f : Formula) : Prop where
  element : ∀ e, f.HasElement e → e ∉ pending → P (f.element e)

namespace Stores

theorem empty : Formula.empty.Stores P [] where
  element e he := by simp [HasElement, Formula.empty] at he

/-- Where no element changes, what is stored stays as it was. -/
theorem of_element (h : f.Stores P pending) (hs : g.elementSlots.size = f.elementSlots.size)
    (he : ∀ e, g.element e = f.element e) : g.Stores P pending where
  element e hg hp := by
    rw [he]
    exact h.element e (by rwa [HasElement, ← hs]) hp

theorem disown (h : f.Stores P pending) : (f.disown l).Stores P pending :=
  h.of_element size_elementSlots_disown fun _ => element_disown

theorem adoptList (h : f.Stores P pending) : (f.adoptList e es).1.Stores P pending :=
  h.of_element size_elementSlots_adoptList fun _ => element_adoptList

theorem replaceRange (h : f.Stores P pending) :
    (f.replaceRange l start stop es).1.Stores P pending :=
  h.of_element size_elementSlots_replaceRange fun _ => element_replaceRange

theorem drain (h : f.Stores P pending) : (f.drain l).1.Stores P pending :=
  h.replaceRange

theorem allocElement (h : f.Stores P pending) :
    (f.allocElement x).1.Stores P (f.nextElement :: pending) where
  element e he hp := by
    simp only [List.mem_cons, not_or] at hp
    obtain ⟨hne, hp⟩ := hp
    rw [element_allocElement, if_neg (Ne.symm hne)]
    refine h.element e ?_ hp
    have : e.index ≠ f.elementSlots.size := fun hc => hne (congrArg ElementId.mk hc)
    simp only [HasElement, size_elementSlots_allocElement] at he ⊢
    omega

/-- What is under construction is done once it is put in. -/
theorem setElement_pending (h : f.Stores P (e :: pending)) (hx : P x) :
    (f.setElement e x).Stores P pending where
  element e' hset hp := by
    have he' : f.HasElement e' := by simpa [HasElement, Formula.setElement] using hset
    rw [element_setElement]
    split
    · exact hx
    · rename_i hne
      refine h.element e' he' fun hc => ?_
      obtain rfl | hc := List.mem_cons.mp hc
      · exact hne ⟨rfl, he'⟩
      · exact hp hc

theorem setElement (h : f.Stores P pending) (hx : P x) : (f.setElement e x).Stores P pending :=
  setElement_pending ⟨fun e' he hp => h.element e' he fun hc => hp (List.mem_cons_of_mem e hc)⟩ hx

/-! ## Planting -/

/-- Planting the lists of a new element, once it is known of each of them. -/
theorem plantLists {nss : List (List Node)}
    (ih : ∀ ns ∈ nss, ∀ (f : Formula) (pending : List ElementId), f.Stores P pending →
      (f.plantAll ns).1.Stores P pending)
    (h : f.Stores P pending) : (f.plantLists e nss).1.Stores P pending := by
  induction nss generalizing f with
  | nil => exact h
  | cons ns rest ihr =>
    exact ihr (fun ns hns => ih ns (by simp [hns])) (ih ns (by simp) f pending h).adoptList

/-- The element of a node is as said, whatever lists it is given. -/
def ofNode (P : Element → Prop) (n : Node) : Prop :=
  ∀ ls, ls.length = n.lists.length → P (n.element ls)

/-- Planting stores what the nodes say. The default that an element begins as is not among it: while
its lists are planted, the element is under construction. -/
theorem planted : (∀ (n : Node) (f : Formula) (pending : List ElementId), f.Stores P pending →
      Node.EveryNode (ofNode P) [n] → (f.plant n).1.Stores P pending) ∧
    ∀ (ns : List Node) (f : Formula) (pending : List ElementId), f.Stores P pending →
      Node.EveryNode (ofNode P) ns → (f.plantAll ns).1.Stores P pending := by
  refine Node.induction ?node ?nil ?cons
  case node =>
    intro n ih f pending h hn
    obtain ⟨hn, hl⟩ := Node.everyNode_singleton.mp hn
    have ih : ∀ ns ∈ n.lists, ∀ (f : Formula) (pending : List ElementId), f.Stores P pending →
        (f.plantAll ns).1.Stores P pending := fun ns hns f pending h =>
      ih ns hns f pending h (hl ns hns)
    rw [plant_eq]
    exact setElement_pending (plantLists ih h.allocElement) (hn _ (length_plantLists _))
  case nil => exact fun f pending h _ => h
  case cons =>
    intro n ns hn hns f pending h hall
    obtain ⟨hhead, htail⟩ := Node.everyNode_cons.mp hall
    exact hns _ pending (hn f pending h (Node.everyNode_singleton.mpr hhead)) htail

theorem plant {n : Node} (h : f.Stores P pending) (hn : Node.EveryNode (ofNode P) [n]) :
    (f.plant n).1.Stores P pending :=
  planted.1 n f pending h hn

theorem plantAll {ns : List Node} (h : f.Stores P pending) (hns : Node.EveryNode (ofNode P) ns) :
    (f.plantAll ns).1.Stores P pending :=
  planted.2 ns f pending h hns

end Stores

/-! ## Reading -/

/-- What holds of the node of every element that stands in a list holds at every depth of what is
read. -/
theorem everyNode_snapshotWithin {p : Node → Prop} (hf : f.Linked pending)
    (h : ∀ e l, f.parent e = some l → ∀ read, p ((f.element e).toNode read)) (d : Nat)
    (l : ListId) : Node.EveryNode p (f.snapshotWithin d l) := by
  induction d generalizing l with
  | zero => exact Node.everyNode_nil
  | succ d ih =>
    refine Node.everyNode_iff_forall.mpr fun n hn => ?_
    obtain ⟨e, he, rfl⟩ := List.mem_map.mp hn
    refine Node.everyNode_singleton.mpr ⟨h e l (hf.mem_elements.mp he) _, fun ns hns => ?_⟩
    rw [Element.lists_toNode] at hns
    obtain ⟨i, -, rfl⟩ := List.mem_map.mp hns
    exact ih i

end Formula

end FormulaEditor
