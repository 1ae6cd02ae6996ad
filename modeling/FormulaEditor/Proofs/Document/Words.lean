import FormulaEditor.Document.Words
import FormulaEditor.Proofs.Document.Delete
import Mathlib.Data.List.TakeWhile

/-!
# Reading words again keeps a document valid

A run of text holds symbols and function names only, and these have no lists. So whatever part of
the run gives way to the words it spells, no list of the formula gets lost.
-/

namespace FormulaEditor

theorem Node.filled_ofWord (word : String) : Node.EveryNode Node.Filled [Node.ofWord word] := by
  have hbig : ∀ op, Node.EveryNode Node.Filled [Node.emptyBig op] := fun op => by
    simp [Node.everyNode_cons, Node.everyNode_nil, Node.emptyBig, Node.lists, Node.Filled]
  unfold Node.ofWord
  split
  · exact Node.everyNode_filled trivial (by simp [Node.lists])
  · exact Node.everyNode_filled trivial (by simp [Node.lists])
  · exact hbig _
  · exact hbig _
  · exact Node.everyNode_filled trivial (by simp [Node.lists])
  · exact Node.everyNode_filled trivial (by simp [Node.lists])
  · split
    · exact Node.everyNode_filled trivial (by simp [Node.lists])
    · split
      · cases BinaryOp.ofKey? _ <;> exact Node.everyNode_filled trivial (by simp [Node.lists])
      · cases Symbol.greekLetter? _ <;> exact Node.everyNode_filled trivial (by simp [Node.lists, Node.ofChar])

theorem Node.everyNode_filled_ofWord (words : List String) :
    Node.EveryNode Node.Filled (words.map Node.ofWord) := by
  refine Node.everyNode_iff_forall.mpr fun n hn => ?_
  obtain ⟨word, -, rfl⟩ := List.mem_map.mp hn
  exact Node.filled_ofWord word

namespace Formula

variable {f g : Formula} {e : ElementId} {es : List ElementId} {l : ListId}
  {pos left right start stop : Nat}

/-- Text has no lists. -/
theorem listsOf_of_isText (h : f.isText e) : f.listsOf e = [] := by
  unfold isText kind at h
  unfold listsOf
  cases hx : f.element e <;> simp_all [Element.kind, Kind.text?, Element.lists]

/-- No list hangs on text, so new elements may go in its place. -/
theorem Grows.keeps_replaceText (hg : f.Grows g) (hf : f.Linked []) (hl : f.HasList l)
    (hle : start ≤ stop) (htext : ∀ e ∈ f.range l start stop, f.isText e) :
    f.Keeps (g.replaceRange l start stop es).1 := by
  refine hg.keeps.trans (keeps_replaceRange (hg.hasList hl) hle fun e he => ?_)
  rw [range, hg.elements hl] at he
  rw [hg.listsOf (hf.hasElement (mem_elements_of_mem_range he))]
  exact listsOf_of_isText (htext e he)

/-- A run of text around a position ends inside the list, and all of it is text. -/
theorem textRun_spec (hpos : pos ≤ f.length l) :
    Succeeds (f.textRun l pos) fun (left, right) =>
      left ≤ right ∧ right ≤ f.length l ∧ ∀ e ∈ f.range l left right, f.isText e := by
  have htext : ∀ (es : List ElementId) (i : Nat), i < (es.takeWhile f.isText).length →
      ∀ {e}, es[i]? = some e → f.isText e := by
    intro es i hi e he
    have hget := (List.takeWhile_prefix f.isText (l := es)).getElem hi
    obtain ⟨hlt, rfl⟩ := List.getElem?_eq_some_iff.mp he
    rw [← hget]
    exact List.mem_takeWhile_imp (List.getElem_mem hi)
  have hbefore :=
    (List.takeWhile_prefix f.isText (l := ((f.elements l).take pos).reverse)).length_le
  have hafter := (List.takeWhile_prefix f.isText (l := (f.elements l).drop pos)).length_le
  rw [textRun, if_pos hpos]
  simp only [length, List.length_reverse, List.length_take, List.length_drop] at *
  refine .ok ⟨by omega, by omega, fun e he => ?_⟩
  obtain ⟨i, hi⟩ := List.mem_iff_getElem?.mp he
  rw [range, List.getElem?_take, List.getElem?_drop] at hi
  split at hi
  · rename_i hlt
    -- In front of the position the run is read backwards.
    by_cases hfront : i < (((f.elements l).take pos).reverse.takeWhile f.isText).length
    · refine htext ((f.elements l).take pos).reverse
        ((((f.elements l).take pos).reverse.takeWhile f.isText).length - 1 - i) (by omega) ?_
      rw [List.getElem?_reverse (by simp only [List.length_take]; omega),
        List.getElem?_take_of_lt (by simp only [List.length_take]; omega), ← hi, List.length_take]
      congr 1
      omega
    · refine htext ((f.elements l).drop pos)
        (i - (((f.elements l).take pos).reverse.takeWhile f.isText).length) (by omega) ?_
      rw [List.getElem?_drop, ← hi]
      congr 1
      omega
  · cases hi

end Formula

theorem lt_of_firstDifference? {names texts : List String} {i : Nat}
    (h : firstDifference? names texts = some i) : i < texts.length := by
  have := (List.findIdx?_eq_some_iff_getElem.mp h).1
  simp only [List.length_zip] at this
  omega

theorem Element.mem_lists_of_opening? {x : Element} {l : ListId} (h : x.opening? = some l) :
    l ∈ x.lists := by
  cases x <;> simp_all [Element.opening?, Element.lists]

namespace Document

variable {doc : Document} {l : ListId} {d : Direction}

/-- Moving succeeds and leaves the formula as it is. -/
theorem Valid.move (h : doc.Valid) (d : Direction) (select : Bool) :
    Succeeds (doc.move d select) fun r =>
      r.1.Valid ∧ (select = false → r.1.Resting) ∧ r.1.formula = doc.formula := by
  refine (h.caret.move h.formula (d := d) select).bind fun r hr => ?_
  exact .ok ⟨⟨h.formula, hr.1⟩, fun hs => ⟨⟨h.formula, hr.1⟩, hr.2 hs⟩, rfl⟩

/-- Reading a run of text again succeeds. Elements stay what they are, and lists where they hang. -/
theorem Resting.convertWords (h : doc.Resting) (hl : doc.caret.place.list = l) :
    Succeeds (doc.convertWords l) fun doc' => doc'.Resting ∧ doc.formula.Keeps doc'.formula ∧
      ∀ e, doc.formula.HasElement e → doc'.formula.element e = doc.formula.element e := by
  subst hl
  have hf := h.formula
  have hplace := h.caret.place
  unfold Document.convertWords
  refine Succeeds.bind (Formula.textRun_spec hplace.le_length) ?_
  rintro ⟨left, right⟩ ⟨hle, hlen, htext⟩
  simp only
  split
  · exact .ok ⟨h, .refl _, fun _ _ => rfl⟩
  · rename_i first hfirst
    have hright : left + first ≤ right := by
      have hlt := lt_of_firstDifference? hfirst
      have := List.length_filterMap_le (fun e => (doc.formula.kind e).text?)
        (((doc.formula.elements doc.caret.place.list).drop left).take (right - left))
      simp only [List.length_take, List.length_drop] at this
      omega
    obtain ⟨hg, hgrows, hready⟩ := hf.plantAll (Node.everyNode_filled_ofWord
      ((Symbol.splitWords (String.join ((((doc.formula.elements doc.caret.place.list).drop left).take
        (right - left)).filterMap fun e => (doc.formula.kind e).text?))).drop first))
    generalize doc.formula.plantAll _ = planted at hg hgrows hready ⊢
    obtain ⟨g, planted⟩ := planted
    have hl := hgrows.hasList (hplace.hasList hf)
    have hsame : g.elements doc.caret.place.list = doc.formula.elements doc.caret.place.list :=
      hgrows.elements (hplace.hasList hf)
    have hlen' : right ≤ g.length doc.caret.place.list := by
      rwa [Formula.length, hsame]
    have hsplice : splice { doc with formula := g } doc.caret.place.list (left + first) right
        planted = _ := splice_eq hright hlen'
    have hreach := hgrows.keeps.reachable hplace.reachable
    have htidy := hg.replaceRange hl hright hready
    have hkeeps : doc.formula.Keeps
        (g.replaceRange doc.caret.place.list (left + first) right planted).1 :=
      hgrows.keeps_replaceText hf.toLinked (hplace.hasList hf) hright fun e he =>
        htext e (Formula.mem_range_of_le (Nat.le_add_right left first) he)
    have helement : ∀ e, doc.formula.HasElement e →
        (g.replaceRange doc.caret.place.list (left + first) right planted).1.element e =
          doc.formula.element e := fun e he => by
      rw [Formula.element_replaceRange, hgrows.element he]
    simp only [hsplice, ok_bind]
    split
    · rename_i entry hentry
      obtain ⟨changed, hhead, hopen⟩ := Option.bind_eq_some_iff.mp hentry
      have hmem := Formula.mem_replaceRange hl (left + first) right (List.mem_of_head? hhead)
      have hentry := (hg.reachable_replaceRange hreach).inside hmem
        (Element.mem_lists_of_opening? hopen)
      exact .ok ⟨h.edit htidy (Formula.isPlace_startOf hentry), hkeeps, helement⟩
    · have hstart := hg.isPlace_replaceRange hreach hright hlen' planted
        (Nat.le_add_right (left + first) _)
      refine ((h.edit htidy hstart).toValid.move .right false).bind ?_
      rintro ⟨doc', moved⟩ ⟨-, hrest, hformula⟩
      exact .ok ⟨hrest rfl, hformula ▸ hkeeps, hformula ▸ helement⟩

end Document

end FormulaEditor
