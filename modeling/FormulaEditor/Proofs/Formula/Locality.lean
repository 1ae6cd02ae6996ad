import FormulaEditor.Formula.Path
import FormulaEditor.Proofs.Formula.Leaves
import FormulaEditor.Proofs.Formula.Stored

/-!
# Edits of one list

Where a formula changes in one list only, its reading changes only there: at the end of the path to
the list. Elsewhere all nodes stay.
-/

namespace FormulaEditor

namespace Node

/-- The node with other lists, as many as it has. -/
def withLists : Node → List (List Node) → Node
  | .frac _ _, [numerator, denominator] => .frac numerator denominator
  | .radical none _, [radicand] => .radical none radicand
  | .radical (some _) _, [index, radicand] => .radical (some index) radicand
  | .scripts (some _) none, [exponent] => .scripts (some exponent) none
  | .scripts none (some _), [subscript] => .scripts none (some subscript)
  | .scripts (some _) (some _), [exponent, subscript] => .scripts (some exponent) (some subscript)
  | .wrapped wrap _, [argument] => .wrapped wrap argument
  | .big op _ _, [top, bottom] => .big op top bottom
  | n, _ => n

/-- The nodes with a change of the list at the end of a path. -/
def changeAt (change : List Node → List Node) : Path → List Node → List Node
  | [], ns => change ns
  | [_], ns => ns
  | i :: j :: path, ns =>
    ns.modify i fun n => n.withLists (n.lists.modify j (changeAt change path))

/-- The nodes with a run of them replaced. -/
def spliced (start stop : Nat) (new ns : List Node) : List Node :=
  ns.take start ++ new ++ ns.drop stop

/-- A run may be replaced by itself. -/
theorem spliced_self {start stop : Nat} {ns : List Node} (h : start ≤ stop) :
    spliced start stop ((ns.drop start).take (stop - start)) ns = ns := by
  have hrest : ns.drop stop = (ns.drop start).drop (stop - start) := by
    rw [List.drop_drop, Nat.add_sub_cancel' h]
  rw [spliced, hrest, List.append_assoc, List.take_append_drop, List.take_append_drop]

theorem withLists_self (n : Node) : n.withLists n.lists = n := by
  rcases n with _ | _ | _ | _ | _ | ⟨_ | _, _⟩ | ⟨_ | _, _ | _⟩ | _ | _ <;> rfl

/-- A change of nothing changes nothing. -/
theorem changeAt_id (path : Path) (ns : List Node) : changeAt id path ns = ns := by
  induction path using List.twoStepInduction generalizing ns with
  | nil => rfl
  | singleton i => rfl
  | cons_cons i j path ih _ =>
    have hid : changeAt id path = id := funext ih
    simp only [changeAt, hid, List.modify_id, withLists_self]
    exact List.modify_id ..

example : changeAt (spliced 0 1 [.ofChar 'y']) [1, 0] [.ofChar 'a', .radical none [.ofChar 'x']] =
    [.ofChar 'a', .radical none [.ofChar 'y']] := rfl

end Node

/-- An element reads with other lists as its node has them. -/
theorem Element.withLists_toNode {x : Element} {read read' : ListId → List Node} :
    (x.toNode read).withLists (x.lists.map read') = x.toNode read' := by
  rcases x with _ | _ | _ | _ | _ | ⟨_ | _, _⟩ | ⟨_ | _, _ | _, _⟩ | _ | _ <;> rfl

namespace Formula

variable {f g : Formula} {e : ElementId} {k l : ListId} {d n : Nat} {path : Path}
  {pending : List ElementId}

/-! ## Paths -/

theorem listFrom?_append {path' : Path} (h : f.listFrom? k path = some l) :
    f.listFrom? k (path ++ path') = f.listFrom? l path' := by
  induction k, path using listFrom?.induct with
  | case1 k =>
    obtain rfl : k = l := Option.some.inj h
    rfl
  | case2 k i => cases h
  | case3 k i j path ih =>
    simp only [listFrom?, Option.bind_eq_bind, Option.bind_eq_some_iff] at h
    obtain ⟨e, he, inner, hinner, h⟩ := h
    simp only [List.cons_append, listFrom?, Option.bind_eq_bind, he, hinner, Option.bind_some]
    exact ih inner h

/-- A path leads into lists that lie below. -/
theorem below_of_listFrom? (h : f.listFrom? k path = some l) : ∃ m, f.Below m k l := by
  induction k, path using listFrom?.induct with
  | case1 k =>
    obtain rfl : k = l := Option.some.inj h
    exact ⟨0, .here k⟩
  | case2 k i => cases h
  | case3 k i j path ih =>
    simp only [listFrom?, Option.bind_eq_bind, Option.bind_eq_some_iff] at h
    obtain ⟨e, he, inner, hinner, h⟩ := h
    obtain ⟨m, hm⟩ := ih inner h
    exact ⟨m + 1, .head (List.mem_of_getElem? he) (List.mem_of_getElem? hinner) hm⟩

/-- Every list of the formula has a path, and the path leads to it. -/
theorem Sound.listAt?_pathTo? (hf : f.Sound pending) (hl : f.Reachable l) :
    ∃ path, f.pathTo? l = some path ∧ f.listAt? path = some l := by
  obtain ⟨n, hn⟩ := hl
  obtain ⟨depth, hdepth⟩ : ∃ depth, depth = f.listSlots.size := ⟨_, rfl⟩
  have hlt : n < depth := hdepth ▸ hf.depth_lt hn
  simp only [pathTo?, ← hdepth, listAt?]
  clear hdepth
  generalize hr : f.root = r at hn
  induction hn generalizing depth with
  | here l =>
    obtain ⟨depth, rfl⟩ : ∃ j, depth = j + 1 := ⟨depth - 1, by omega⟩
    exact ⟨[], by rw [pathWithin?, if_pos hr.symm], rfl⟩
  | @inside n r outer i e hn he hi ih =>
    obtain ⟨depth, rfl⟩ : ∃ j, depth = j + 1 := ⟨depth - 1, by omega⟩
    obtain ⟨path, hpath, hlist⟩ := ih depth (by omega) hr
    have hne : i ≠ f.root := hf.ne_root he hi
    have hparent := hf.mem_elements.mp he
    obtain ⟨number, hnumber⟩ : ∃ number, (f.listsOf e).idxOf? i = some number := by
      cases hidx : (f.listsOf e).idxOf? i with
      | none => exact absurd hi (List.idxOf?_eq_none_iff.mp hidx)
      | some number => exact ⟨number, rfl⟩
    refine ⟨path ++ [f.position e, number], ?_, ?_⟩
    · rw [pathWithin?, if_neg hne]
      simp [hf.owner_of_mem he hi, hparent, hnumber, hpath]
    · rw [listFrom?_append hlist]
      have hget : (f.listsOf e)[number]? = some i := by
        obtain ⟨hlt, heq, -⟩ := List.idxOf?_eq_some_iff.mp hnumber
        rw [List.getElem?_eq_getElem hlt, heq]
      simp [listFrom?, hf.getElem?_position hparent, hget]

/-- A list lies below one list of an element at most. -/
theorem Sound.listsOf_unique (hf : f.Sound pending) {i j m m' : Nat} {a b : ListId}
    (hk : f.Reachable k) (he : e ∈ f.elements k) (ha : (f.listsOf e)[i]? = some a)
    (hb : (f.listsOf e)[j]? = some b) (hl : f.Below m a l) (hl' : f.Below m' b l) : i = j := by
  obtain ⟨-, rfl⟩ := hf.branch_unique hk he (List.mem_of_getElem? ha) he (List.mem_of_getElem? hb)
    hl hl'
  have hlt := (List.getElem?_eq_some_iff.mp ha).1
  exact (List.getElem?_inj hlt (hf.whole e k (hf.mem_elements.mp he)).nodup).mp (ha.trans hb.symm)

/-! ## Readings -/

/-- In the second formula the elements of the first one are the same, and so are those of its lists
that are as said. -/
structure AgreesOn (f g : Formula) (P : ListId → Prop) : Prop where
  root : g.root = f.root
  elements : ∀ k, f.HasList k → P k → g.elements k = f.elements k
  element : ∀ k, ∀ e ∈ f.elements k, g.element e = f.element e

/-- The whole formula is its root, read down far enough. -/
theorem Sound.nodes_eq_snapshotWithin (hf : f.Sound pending) (hd : f.listSlots.size ≤ d) :
    f.nodes = f.snapshotWithin d f.root :=
  hf.snapshotWithin_eq (.here _) (by simp) (by omega)

/-- A list reads as before where all lists inside it do. -/
theorem AgreesOn.snapshotWithin_eq {P : ListId → Prop} (h : f.AgreesOn g P) (hf : f.Sound pending)
    (hk : f.HasList k) (hin : ∀ m i, f.Below m k i → P i) :
    g.snapshotWithin d k = f.snapshotWithin d k := by
  induction d generalizing k with
  | zero => rfl
  | succ d ih =>
    rw [snapshotWithin_succ, snapshotWithin_succ, h.elements k hk (hin 0 k (.here k))]
    refine List.map_congr_left fun e he => ?_
    rw [spelled, spelled, h.element k e he]
    exact Element.toNode_congr fun i hi => ih (hf.allocated e i hi) fun m i' hm =>
      hin (m + 1) i' (hm.head he hi)

section Everywhere

variable (h : f.AgreesOn g fun _ => True) (hf : f.Sound pending) (hg : g.Sound pending)

include h hf hg

/-- Formulas that agree on all lists read the same. -/
theorem AgreesOn.nodes_eq : g.nodes = f.nodes := by
  obtain ⟨d, hd⟩ : ∃ d, d = f.listSlots.size + g.listSlots.size := ⟨_, rfl⟩
  rw [hg.nodes_eq_snapshotWithin (d := d) (by omega), hf.nodes_eq_snapshotWithin (d := d) (by omega),
    h.root]
  exact h.snapshotWithin_eq hf hf.root_hasList fun _ _ _ => trivial

theorem AgreesOn.pathWithin?_eq {d' : Nat} (hn : f.Below n f.root l) (hd : n < d) (hd' : n < d') :
    g.pathWithin? d' l = f.pathWithin? d l := by
  generalize hr : f.root = r at hn
  induction hn generalizing d d' with
  | here =>
    obtain ⟨d, rfl⟩ : ∃ j, d = j + 1 := ⟨d - 1, by omega⟩
    obtain ⟨d', rfl⟩ : ∃ j, d' = j + 1 := ⟨d' - 1, by omega⟩
    rw [pathWithin?, pathWithin?, h.root, if_pos hr.symm, if_pos hr.symm]
  | @inside n r outer i e hn he hi ih =>
    obtain ⟨d, rfl⟩ : ∃ j, d = j + 1 := ⟨d - 1, by omega⟩
    obtain ⟨d', rfl⟩ : ∃ j, d' = j + 1 := ⟨d' - 1, by omega⟩
    have hne : i ≠ f.root := hf.ne_root he hi
    have helements := h.elements outer (hasList_of_mem he) trivial
    have he' : e ∈ g.elements outer := helements ▸ he
    have hlists : g.listsOf e = f.listsOf e := congrArg Element.lists (h.element outer e he)
    have hget := hf.getElem?_position (hf.mem_elements.mp he)
    obtain ⟨hparent, hposition⟩ := (hg.link _ _ _).mp (helements ▸ hget)
    have hrest : g.pathWithin? d' outer = f.pathWithin? d outer := ih (by omega) (by omega) hr
    rw [pathWithin?, pathWithin?, h.root, if_neg hne, if_neg hne, hf.owner_of_mem he hi,
      hg.owner_of_mem he' (hlists ▸ hi)]
    simp only [hf.mem_elements.mp he, hparent, hposition, hlists, hrest, Option.bind_eq_bind,
      Option.bind_some]

/-- In formulas that agree on all lists the lists stand at the same places. -/
theorem AgreesOn.pathTo?_eq (hl : f.Reachable l) : g.pathTo? l = f.pathTo? l := by
  have hkeeps : f.Keeps g :=
    { root := h.root
      link := fun k e he i hi =>
        ⟨(h.elements k (hasList_of_mem he) trivial).symm ▸ he,
          by rwa [listsOf, h.element k e he]⟩ }
  obtain ⟨n, hn⟩ := hl
  exact h.pathWithin?_eq hf hg hn (hf.depth_lt hn) (hg.depth_lt (hkeeps.below hn))

end Everywhere

/-- Formulas that agree on all lists but one. -/
abbrev AgreesBut (f g : Formula) (l : ListId) : Prop :=
  f.AgreesOn g (· ≠ l)

namespace AgreesBut

variable (h : f.AgreesBut g l) (hf : f.Sound pending)

include h hf

/-- A list that the changed one does not lie in reads as before. -/
theorem snapshotWithin_eq (hk : f.HasList k) (hnot : ∀ m, ¬f.Below m k l) :
    g.snapshotWithin d k = f.snapshotWithin d k :=
  AgreesOn.snapshotWithin_eq h hf hk fun m _ hm hc => hnot m (hc ▸ hm)

/-- Among the elements of a list around the changed one, one reads differently at most. -/
theorem spelled_eq {i j : Nat} {x : ElementId} (hk : f.Reachable k)
    (he : (f.elements k)[i]? = some e) (hl : ∃ inner ∈ f.listsOf e, ∃ m, f.Below m inner l)
    (hx : (f.elements k)[j]? = some x) (hij : i ≠ j) : g.spelled d x = f.spelled d x := by
  obtain ⟨inner, hinner, m, hm⟩ := hl
  have hmem := List.mem_of_getElem? hx
  rw [spelled, spelled, h.element k x hmem]
  refine Element.toNode_congr fun i' hi' => ?_
  refine h.snapshotWithin_eq hf (hf.allocated x i' hi') fun m' hm' => hij ?_
  exact (hf.encloses_unique (p := startOf l) hk (.around (r := ⟨k, i⟩) he hinner hm)
    (.around (r := ⟨k, j⟩) hx hi' hm')).2

/-- The reading of the formula changes at the end of the path to the list, as the list does. -/
theorem snapshotWithin_changeAt {change : List Node → List Node} {D : Nat}
    (hl : ∀ d ≥ D, g.snapshotWithin d l = change (f.snapshotWithin d l))
    (hk : f.Reachable k) (hpath : f.listFrom? k path = some l) (hd : D + path.length ≤ d) :
    g.snapshotWithin d k = Node.changeAt change path (f.snapshotWithin d k) := by
  induction k, path using listFrom?.induct generalizing d with
  | case1 k =>
    obtain rfl : k = l := Option.some.inj hpath
    exact hl d (by simpa using hd)
  | case2 k i => cases hpath
  | case3 k i j path ih =>
    simp only [listFrom?, Option.bind_eq_bind, Option.bind_eq_some_iff] at hpath
    obtain ⟨e, he, inner, hinner, hpath⟩ := hpath
    have hemem := List.mem_of_getElem? he
    have himem := List.mem_of_getElem? hinner
    obtain ⟨m, hm⟩ := below_of_listFrom? hpath
    simp only [List.length_cons] at hd
    obtain ⟨d, rfl⟩ : ∃ d', d = d' + 1 := ⟨d - 1, by omega⟩
    have hkl : k ≠ l := by
      rintro rfl
      exact hf.not_below_of_inside hk hemem himem hm
    have hlist : g.snapshotWithin d inner = Node.changeAt change path (f.snapshotWithin d inner) :=
      ih inner (hk.inside hemem himem) hpath (by omega)
    have hself : g.spelled d e =
        (f.spelled d e).withLists ((f.spelled d e).lists.modify j (Node.changeAt change path)) := by
      have hlists : (f.spelled d e).lists.modify j (Node.changeAt change path) =
          (f.listsOf e).map (g.snapshotWithin d) := by
        rw [spelled, Element.lists_toNode, ← listsOf]
        refine List.ext_getElem? fun j' => ?_
        rw [List.getElem?_modify, List.getElem?_map, List.getElem?_map]
        cases hget : (f.listsOf e)[j']? with
        | none => rfl
        | some inner' =>
          have hmem' := List.mem_of_getElem? hget
          by_cases hjj : j = j'
          · subst hjj
            obtain rfl : inner = inner' := Option.some.inj (hinner.symm.trans hget)
            simp [hlist]
          · simp only [Option.map_some, if_neg hjj]
            refine congrArg some (h.snapshotWithin_eq hf (hf.allocated e inner' hmem') ?_).symm
            exact fun m' hm' => hjj (hf.listsOf_unique hk hemem hinner hget hm hm')
      rw [hlists, spelled, spelled, listsOf, h.element k e hemem]
      exact Element.withLists_toNode.symm
    have hmap : g.snapshotWithin (d + 1) k = (f.elements k).map (g.spelled d) := by
      rw [snapshotWithin_succ, h.elements k (hf.reachable_hasList hk) hkl]
    rw [hmap, snapshotWithin_succ, Node.changeAt]
    refine List.ext_getElem? fun i' => ?_
    rw [List.getElem?_modify, List.getElem?_map, List.getElem?_map]
    cases hget : (f.elements k)[i']? with
    | none => rfl
    | some x =>
      by_cases hii : i = i'
      · subst hii
        obtain rfl : e = x := Option.some.inj (he.symm.trans hget)
        simp [hself]
      · simp [hii, h.spelled_eq hf hk he ⟨inner, himem, m, hm⟩ hget hii]

/-- So the whole formula changes at the end of the path to the list. -/
theorem nodes_eq {change : List Node → List Node} (hg : g.Sound pending)
    (hl : ∃ D, ∀ d ≥ D, g.snapshotWithin d l = change (f.snapshotWithin d l))
    (hpath : f.listAt? path = some l) : g.nodes = Node.changeAt change path f.nodes := by
  obtain ⟨D, hl⟩ := hl
  obtain ⟨d, hd⟩ : ∃ d, d = D + path.length + (f.listSlots.size + g.listSlots.size) := ⟨_, rfl⟩
  rw [hg.nodes_eq_snapshotWithin (d := d) (by omega), hf.nodes_eq_snapshotWithin (d := d) (by omega),
    h.root]
  exact h.snapshotWithin_changeAt hf hl reachable_root hpath (by omega)

end AgreesBut

theorem AgreesBut.replaceRange {start stop : Nat} {es : List ElementId} (hl : f.HasList l) :
    f.AgreesBut (f.replaceRange l start stop es).1 l where
  root := root_replaceRange
  elements k _ hk := by rw [elements_replaceRange hl, if_neg hk.symm]
  element _ _ _ := element_replaceRange

/-- Elements that stand nowhere read the same wherever they, or others, go. -/
theorem Spells.replaceRange {start stop : Nat} {es es' : List ElementId} {ns : List Node}
    (hs : f.Spells es ns) (hf : f.Sound pending) (hl : f.Reachable l) (hes : f.Loose es)
    (hw : ∀ e ∈ es, f.Whole e) : (f.replaceRange l start stop es').1.Spells es ns := by
  obtain ⟨D, hD⟩ := hs
  refine ⟨D, fun d hd => (List.map_congr_left fun e he => ?_).trans (hD d hd)⟩
  rw [spelled, spelled, element_replaceRange]
  refine Element.toNode_congr fun i hi => ?_
  refine (AgreesBut.replaceRange (hf.reachable_hasList hl)).snapshotWithin_eq hf
    (hf.allocated e i hi) fun m hm => ?_
  -- Around a list of the formula stand elements of the formula only.
  obtain ⟨outer, hparent, -⟩ := hf.outer_of_reachable (hf.reachable_of_below hl hm)
    ((hw e he).owns i hi)
  simp [hes.parent e he] at hparent

/-! ## Replacing a run -/

/-- In the second formula new elements stand in the place of a run of a list. All else is as in the
first one. -/
structure Replaces (f g : Formula) (s : Selection) (es : List ElementId) : Prop where
  root : g.root = f.root
  list : g.elements s.list = f.replaced s.list s.start s.stop es
  elements : ∀ k, f.HasList k → k ≠ s.list → g.elements k = f.elements k
  element : ∀ e, f.HasElement e → g.element e = f.element e
  hasList : ∀ k, f.HasList k → g.HasList k
  hasElement : ∀ e, f.HasElement e → g.HasElement e
  new : ∀ e ∈ es, ¬f.HasElement e

namespace Replaces

variable {s : Selection} {es : List ElementId} {ns : List Node}

theorem agreesBut (h : f.Replaces g s es) (hf : f.Linked pending) : f.AgreesBut g s.list where
  root := h.root
  elements := h.elements
  element _ e he := h.element e (hf.hasElement he)

/-- Nothing is put in the place of nothing. -/
theorem refl (hs : s.start = s.stop) : f.Replaces f s [] where
  root := rfl
  list := by simp [replaced, hs]
  elements _ _ _ := rfl
  element _ _ := rfl
  hasList _ := id
  hasElement _ := id
  new := by simp

/-- New elements may go in the place of a run. -/
theorem of_grows (hg : f.Grows g) (hl : f.HasList s.list) (hes : ∀ e ∈ es, ¬f.HasElement e) :
    f.Replaces (g.replaceRange s.list s.start s.stop es).1 s es where
  root := by rw [root_replaceRange, hg.root]
  list := by
    rw [elements_replaceRange (hg.hasList hl), if_pos rfl, replaced, replaced, hg.elements hl]
  elements k hk hne := by
    rw [elements_replaceRange (hg.hasList hl), if_neg hne.symm, hg.elements hk]
  element e he := by rw [element_replaceRange, hg.element he]
  hasList k hk := by simpa [HasList] using hg.hasList hk
  hasElement e he := by simpa [HasElement] using hg.hasElement he
  new := hes

/-- Taking a run out puts nothing in its place. -/
theorem removed (hl : f.HasList s.list) :
    f.Replaces (f.replaceRange s.list s.start s.stop []).1 s [] :=
  of_grows (.refl f) hl (by simp)

/-- New elements may go where a run has been taken out. -/
theorem insert {g' : Formula} (h : f.Replaces g s []) (hg : g.Grows g') (hl : f.HasList s.list)
    (hs : s.start ≤ f.length s.list) (hes : ∀ e ∈ es, ¬g.HasElement e) :
    f.Replaces (g'.replaceRange s.list s.start s.start es).1 s es where
  root := by rw [root_replaceRange, hg.root, h.root]
  list := by
    have hlen : ((f.elements s.list).take s.start).length = s.start :=
      List.length_take_of_le hs
    rw [elements_replaceRange (hg.hasList (h.hasList _ hl)), if_pos rfl, replaced,
      hg.elements (h.hasList _ hl), h.list, replaced, List.append_nil, replaced,
      List.take_left' hlen, List.drop_left' hlen]
  elements k hk hne := by
    rw [elements_replaceRange (hg.hasList (h.hasList _ hl)), if_neg hne.symm,
      hg.elements (h.hasList _ hk), h.elements k hk hne]
  element e he := by rw [element_replaceRange, hg.element (h.hasElement e he), h.element e he]
  hasList k hk := by simpa [HasList] using hg.hasList (h.hasList k hk)
  hasElement e he := by simpa [HasElement] using hg.hasElement (h.hasElement e he)
  new e he hc := hes e he (h.hasElement e hc)

/-- The list of the run reads as before with the new nodes in the place of the run. -/
theorem exists_spliced (h : f.Replaces g s es) (hf : f.Sound pending) (hs : f.Reachable s.list)
    (hns : g.Spells es ns) : ∃ D, ∀ d ≥ D, g.snapshotWithin d s.list =
      Node.spliced s.start s.stop ns (f.snapshotWithin d s.list) := by
  obtain ⟨D, hD⟩ := hns
  refine ⟨D + 1, fun d hd => ?_⟩
  obtain ⟨d, rfl⟩ : ∃ d', d = d' + 1 := ⟨d - 1, by omega⟩
  have hsame : (f.elements s.list).map (g.spelled d) = (f.elements s.list).map (f.spelled d) := by
    refine List.map_congr_left fun e he => ?_
    rw [spelled, spelled, h.element e (hf.hasElement he)]
    refine Element.toNode_congr fun i hi => ?_
    refine (h.agreesBut hf.toLinked).snapshotWithin_eq hf (hf.allocated e i hi) fun m hm => ?_
    exact hf.not_below_of_inside hs he hi hm
  rw [snapshotWithin_succ, snapshotWithin_succ, h.list, replaced, Node.spliced, ← hsame,
    ← hD d (by omega)]
  simp

end Replaces

end Formula

end FormulaEditor
