import FormulaEditor.Proofs.Document.Deletion
import FormulaEditor.Proofs.Session.Edits

/-!
# The caret at the seam

Where an element is taken apart, the caret goes to the beginning of what one of its lists held. That
is where it was read before, unless it stood at the end of that list: what the list held lies before
the caret then and after it once the element is gone.
-/

namespace FormulaEditor

namespace Formula

variable {f g : Formula} {e : ElementId} {i l : ListId} {p q : Place} {d : Direction} {depth : Nat}
  {left right : List ListId} {pending pending' : List ElementId}

/-! ## Entering -/

/-- Going into the element behind a place, nothing is passed. -/
theorem Sound.leaves_enter_right (hf : f.Sound pending) (hl : f.Reachable l) {k : Nat}
    (he : (f.elements l)[k]? = some e) (hi : (f.listsOf e).head? = some i) :
    f.leavesBefore (startOf i) = f.leavesBefore ⟨l, k⟩ ∧
      f.leavesAfter (startOf i) = f.leavesAfter ⟨l, k⟩ := by
  obtain ⟨pre, post, hr⟩ := Around.exists_of_reachable hl
  obtain ⟨before, after, hsplit, rfl⟩ := exists_split he
  obtain ⟨right, hlists⟩ : ∃ right, f.listsOf e = [] ++ i :: right := List.head?_eq_some_iff.mp hi
  have hmem : e ∈ f.elements l := List.mem_of_getElem? he
  have hri := hl.inside hmem (i := i) (by simp [hlists])
  have hlt : before.length ≤ f.length l := by simp [Formula.length, hsplit]
  have hout := hr.leaves_eq hf hlt
  have hin := (hr.inside hsplit hlists).leaves_eq hf (Nat.zero_le (f.length i))
  have hof : f.leavesOf e = (i :: right).flatMap f.leavesFrom := by
    rw [leavesOf, if_neg (by simp [hlists]), hlists, List.nil_append]
  simp only [startOf]
  rw [hin.1, hin.2, hout.1, hout.2, hsplit]
  simp [leavesIn_flatMap, hof, hf.leavesFrom_eq hri]

/-- Going into the element before a place, nothing is passed. -/
theorem Sound.leaves_enter_left (hf : f.Sound pending) (hl : f.Reachable l) {k : Nat}
    (he : (f.elements l)[k]? = some e) (hi : (f.listsOf e).getLast? = some i) :
    f.leavesBefore (f.endOf i) = f.leavesBefore ⟨l, k + 1⟩ ∧
      f.leavesAfter (f.endOf i) = f.leavesAfter ⟨l, k + 1⟩ := by
  obtain ⟨pre, post, hr⟩ := Around.exists_of_reachable hl
  obtain ⟨before, after, hsplit, rfl⟩ := exists_split he
  obtain ⟨left, hlists⟩ : ∃ left, f.listsOf e = left ++ [i] := List.getLast?_eq_some_iff.mp hi
  have hmem : e ∈ f.elements l := List.mem_of_getElem? he
  have hri := hl.inside hmem (i := i) (by simp [hlists])
  have hlt : before.length + 1 ≤ f.length l := by simp [Formula.length, hsplit]
  have hout := hr.leaves_eq hf hlt
  have hin := (hr.inside hsplit hlists).leaves_eq hf (Nat.le_refl (f.length i))
  have hof : f.leavesOf e = (left ++ [i]).flatMap f.leavesFrom := by
    rw [leavesOf, if_neg (by simp [hlists]), hlists]
  have htake : (before ++ e :: after).take (before.length + 1) = before ++ [e] := by
    simp [List.take_append, List.take_of_length_le]
  have hdrop : (before ++ e :: after).drop (before.length + 1) = after := by
    simp [List.drop_append, List.drop_eq_nil_of_le]
  simp only [endOf]
  rw [hin.1, hin.2, hout.1, hout.2, hsplit, htake, hdrop]
  simp [leavesIn_flatMap, hof, hf.leavesFrom_eq hri, Formula.length]

/-- On the way to where a deletion ends up, nothing is passed. -/
theorem Sound.leaves_deletionPlace (hf : f.Sound pending) (depth : Nat) (hp : f.IsPlace p)
    (hd : d.isVertical = false) :
    f.leavesBefore (f.deletionPlace d depth p) = f.leavesBefore p ∧
      f.leavesAfter (f.deletionPlace d depth p) = f.leavesAfter p := by
  induction depth generalizing p with
  | zero => exact ⟨rfl, rfl⟩
  | succ depth ih =>
    unfold deletionPlace
    split
    · rename_i inner h
      obtain ⟨⟨k, e⟩, ha, hb⟩ := Option.bind_eq_some_iff.mp h
      obtain ⟨hk, he⟩ := adjacent?_eq_some.mp ha
      have hmem := List.mem_of_getElem? he
      obtain ⟨hbefore, hafter⟩ :=
        ih (isPlace_entering (d := d) (hp.reachable.inside hmem (mem_lists_of_boundary? hb)))
      rw [hbefore, hafter]
      obtain ⟨l, pos⟩ := p
      obtain ⟨rfl, hpos⟩ | ⟨hne, hpos⟩ := adjacentIndex?_eq hk
      · obtain rfl : pos = k + 1 := hpos
        exact hf.leaves_enter_left hp.reachable he hb
      · obtain rfl : pos = k := hpos
        cases d with
        | right => exact hf.leaves_enter_right hp.reachable he hb
        | left => exact absurd rfl hne
        | up | down => cases hd
    · exact ⟨rfl, rfl⟩

/-! ## Taking an element apart -/

/-- Seen from the place that the caret goes to when an element is taken apart, the leaves lie as they
lay seen from a place in the list, but for those in the list before that place. -/
theorem GivesWay.leaves_dissolved (hf : f.Sound pending) (hg : g.Sound pending')
    (h : f.GivesWay g l e ((f.listsOf e).flatMap f.elements) (f.listsOf e))
    (hlists : f.listsOf e = left ++ i :: right) {k : Nat} (hk : k ≤ f.length i) :
    g.leavesBefore ⟨l, f.position e + (left.flatMap f.elements).length⟩ ++
        ((f.elements i).take k).flatMap f.leavesOf = f.leavesBefore ⟨i, k⟩ ∧
      g.leavesAfter ⟨l, f.position e + (left.flatMap f.elements).length⟩ =
        ((f.elements i).take k).flatMap f.leavesOf ++ f.leavesAfter ⟨i, k⟩ := by
  have ha := Deletion.accounts_dissolved (g := g) hf h.reachable h.mem
  obtain ⟨pre, post, hr⟩ := Around.exists_of_reachable h.reachable
  obtain ⟨before, after, hsplit, hsplit', hposition, hbefore, hafter⟩ := h.exists_sides hf ha hg
  -- What is read in the old list, and in the new one.
  have hold := (hr.inside hsplit hlists).leaves_eq hf hk
  have hcontents : (f.listsOf e).flatMap f.elements =
      left.flatMap f.elements ++ (f.elements i ++ right.flatMap f.elements) := by
    rw [hlists, List.flatMap_append, List.flatMap_cons]
  have hlist : g.elements l = (before ++ left.flatMap f.elements) ++
      (f.elements i ++ (right.flatMap f.elements ++ after)) := by
    rw [hsplit', hcontents]
    simp
  have hlength : f.position e + (left.flatMap f.elements).length =
      (before ++ left.flatMap f.elements).length := by
    rw [hposition, List.length_append]
  have hle : f.position e + (left.flatMap f.elements).length ≤ g.length l := by
    rw [hlength, Formula.length, hlist]
    exact (List.prefix_append _ _).length_le
  have hnew := (h.around hf ha hg hr).leaves_eq hg hle
  rw [hlength, hlist, List.take_left, List.drop_left] at hnew
  -- What the element held has the leaves that it had.
  have hleft := h.leaves_come hf ha hg left fun j hj => by simp [hlists, hj]
  have hright := h.leaves_come hf ha hg right fun j hj => by simp [hlists, hj]
  have hi := h.leaves_come hf ha hg [i] fun j hj => by simp_all
  rw [List.flatMap_singleton, List.flatMap_singleton] at hi
  have hri := h.reachable.inside h.mem (i := i) (by simp [hlists])
  have hwhole : f.leavesFrom i = ((f.elements i).take k).flatMap f.leavesOf ++
      ((f.elements i).drop k).flatMap f.leavesOf := by
    rw [hf.leavesFrom_eq hri, ← List.flatMap_append, List.take_append_drop]
  rw [← hlength] at hnew
  rw [hnew.1, hnew.2, hold.1, hold.2]
  simp only [List.flatMap_append, hbefore, hafter, hleft, hright, hi, hwhole, leavesIn_append,
    leavesIn_gap, leaves_stopsAlong, leavesIn_flatMap, leaves_stopsFrom, List.append_assoc, and_self]

/-- The leaves that a deletion to the right leaves behind it when it takes an element apart from the
end of one of its lists: those of the list. -/
def overtaken (f : Formula) (p : Place) (d : Direction) (e : ElementId) : List ElementId :=
  if d = .right ∧ p.list ∈ f.listsOf e then f.leavesFrom p.list else []

/-- What is overtaken are the leaves before the place at which the deletion ends up, in the list that
this is a place of. -/
theorem Sound.overtaken_eq (hf : f.Sound pending) (hp : f.IsPlace p) (hd : d.isVertical = false)
    (hq : q = f.deletionPlace d depth p) (ha : f.adjacent? q d = none)
    (hl : f.Reachable l) (he : e ∈ f.elements l) (hmem : q.list ∈ f.listsOf e) :
    ((f.elements q.list).take q.pos).flatMap f.leavesOf = f.overtaken p d e := by
  cases d with
  | up | down => cases hd
  | left =>
    have hpos : q.pos = 0 := by
      by_contra hne
      have hle : q.pos ≤ (f.elements q.list).length :=
        hq ▸ (Document.isPlace_deletionPlace (d := .left) depth hp).le_length
      have hlt : q.pos - 1 < (f.elements q.list).length := by omega
      simp [adjacent?, adjacentIndex?, hne, hlt] at ha
    simp [overtaken, hpos]
  | right =>
    have hnone : (f.elements q.list)[q.pos]? = none := by
      rw [Option.eq_none_iff_forall_ne_some]
      simpa [adjacent?, adjacentIndex?] using ha
    have hend := List.getElem?_eq_none_iff.mp hnone
    rw [List.take_of_length_le hend, ← hf.leavesFrom_eq (hl.inside he hmem), overtaken]
    obtain heq | ⟨n, inner, hn, heq⟩ := deletionPlace_eq_or (f := f) (d := .right) depth p
    · obtain rfl : q = p := hq.trans heq
      rw [if_pos ⟨rfl, hmem⟩]
    · -- The list has been entered at its beginning, and nothing is in it.
      obtain rfl : q = startOf inner := hq.trans heq
      have hempty : f.elements inner = [] := List.length_eq_zero_iff.mp (Nat.le_zero.mp hend)
      have hnot : p.list ∉ f.listsOf e := fun hc => by
        obtain ⟨m, hm⟩ := hl
        have := hf.depth_unique (hm.inside he hmem) ((hm.inside he hc).trans hn)
        omega
      rw [if_neg fun hc => hnot hc.2, hf.leavesFrom_eq (hl.inside he hmem)]
      simp [startOf, hempty]

end Formula

namespace Document

open Formula

variable {doc : Document} {d : Direction}

/-- Where an element is taken apart, the leaves before the caret and those after it stay what they
were just if no leaf is overtaken. Otherwise the overtaken leaves, which were the last ones before the
caret, are the first ones after it. -/
theorem Resting.dissolve_keeps_seam_iff (h : doc.Resting) (hd : d.isVertical = false) :
    ∃ doc', doc.delete d = .ok (doc', []) ∧
      ∀ e, (Deletion.dissolved e).Describes doc.formula doc'.formula →
        doc'.formula.leavesBefore doc'.caret.place ++
            doc.formula.overtaken doc.caret.place d e =
          doc.formula.leavesBefore doc.caret.place ∧
        doc'.formula.leavesAfter doc'.caret.place =
          doc.formula.overtaken doc.caret.place d e ++
            doc.formula.leavesAfter doc.caret.place ∧
        ((doc'.formula.leavesBefore doc'.caret.place =
              doc.formula.leavesBefore doc.caret.place ∧
            doc'.formula.leavesAfter doc'.caret.place =
              doc.formula.leavesAfter doc.caret.place) ↔
          doc.formula.overtaken doc.caret.place d e = []) := by
  obtain ⟨q, hq⟩ : ∃ q, q = doc.formula.deletionPlace d doc.formula.listSlots.size doc.caret.place :=
    ⟨_, rfl⟩
  obtain ⟨doc', o, hdelete, hrest', hdecided, hdesc, hcaret⟩ := h.delete_decided hd hq
  refine ⟨doc', hdelete, fun e he => ?_⟩
  have hf := h.formula.toSound
  obtain rfl := hdesc.unique hf he
  obtain ⟨outer, left, right, hr, hp, hlists, hcaret⟩ := hcaret
  cases hdecided with
  | dissolved ha _ _ =>
    cases hdesc with
    | @dissolved l _ _ _ hway =>
      obtain rfl := hf.eq_of_mem (hf.mem_elements.mpr hp) hway.mem
      have hplace : doc.formula.IsPlace q :=
        hq ▸ isPlace_deletionPlace doc.formula.listSlots.size h.caret.place
      obtain ⟨hbefore, hafter⟩ := hway.leaves_dissolved hf hrest'.formula.toSound hlists
        hplace.le_length
      obtain ⟨hbefore', hafter'⟩ := hf.leaves_deletionPlace
        doc.formula.listSlots.size h.caret.place hd
      rw [← hq] at hbefore' hafter'
      rw [hf.overtaken_eq h.caret.place hd hq ha hr hway.mem (by simp [hlists]), ← hcaret]
        at hbefore hafter
      rw [hbefore'] at hbefore
      rw [hafter'] at hafter
      refine ⟨hbefore, hafter, fun ⟨hsame, _⟩ => ?_, fun hnone => ?_⟩
      · rw [hsame] at hbefore
        simpa using hbefore
      · rw [hnone] at hbefore hafter
        exact ⟨by simpa using hbefore, hafter⟩

/-- From a place of a fraction that has nothing beside it, deleting takes the fraction apart. -/
theorem Resting.dissolves_fraction (h : doc.Resting) (hd : d.isVertical = false) {e : ElementId}
    {numerator denominator : ListId}
    (ha : doc.formula.adjacent? doc.caret.place d = none)
    (ho : doc.formula.owner doc.caret.place.list = some e)
    (hx : doc.formula.element e = .frac numerator denominator) :
    ∃ doc', doc.delete d = .ok (doc', []) ∧
      (Deletion.dissolved e).Describes doc.formula doc'.formula := by
  obtain ⟨doc', o, hdelete, -, hdecided, hdesc, -⟩ := h.delete_decided hd
    (deletionPlace_of_adjacent doc.formula.listSlots.size ha).symm
  refine ⟨doc', hdelete, ?_⟩
  cases hdecided with
  | nothing _ ho' => simp [ho] at ho'
  | removed ha' => simp [ha] at ha'
  | dissolved _ ho' =>
    obtain rfl := Option.some.inj (ho.symm.trans ho')
    exact hdesc
  | halved _ ho' hx' =>
    obtain rfl := Option.some.inj (ho.symm.trans ho')
    simp [hx] at hx'

theorem resting_in_fraction {p : Place} (hp : p = ⟨⟨1⟩, 1⟩ ∨ p = ⟨⟨2⟩, 0⟩) :
    ((ofNodes [.frac [.paren '('] [.binary .plus]] false).moveCaret p).Resting := by
  have hfilled : Node.EveryNode Node.Filled [.frac [.paren '('] [.binary .plus]] := by
    simp [Node.everyNode_cons, Node.everyNode_nil, Node.Filled, Node.lists]
  refine ⟨(valid_ofNodes hfilled).moveCaret ?_, rfl⟩
  obtain rfl | rfl := hp
  · exact ⟨⟨1, .inside (e := ⟨0⟩) (.here _) (by decide) (by decide)⟩, by decide⟩
  · exact ⟨⟨1, .inside (e := ⟨0⟩) (.here _) (by decide) (by decide)⟩, by decide⟩

/-- Backspace at the beginning of a denominator leaves the caret between what was above and below. -/
theorem dissolve_keeps_seam_iff_in_denominator : ∃ doc doc' : Document, doc.Resting ∧
    doc.caret.place = ⟨⟨2⟩, 0⟩ ∧ doc.delete .left = .ok (doc', []) ∧
    (Deletion.dissolved ⟨0⟩).Describes doc.formula doc'.formula ∧
    doc'.formula.leavesBefore doc'.caret.place = doc.formula.leavesBefore doc.caret.place ∧
    doc'.formula.leavesAfter doc'.caret.place = doc.formula.leavesAfter doc.caret.place := by
  have hrest := resting_in_fraction (.inr rfl)
  obtain ⟨doc', hdelete, hdesc⟩ := hrest.dissolves_fraction (d := .left) rfl (by decide) rfl rfl
  obtain ⟨doc'', hdelete', hseam⟩ := hrest.dissolve_keeps_seam_iff (d := .left) rfl
  obtain rfl : doc' = doc'' := by
    rw [hdelete] at hdelete'
    cases hdelete'
    rfl
  exact ⟨_, doc', hrest, rfl, hdelete, hdesc, (hseam _ hdesc).2.2.mpr rfl⟩

/-- Delete at the end of a numerator takes the caret to the beginning of it. -/
theorem dissolve_overtakes_numerator : ∃ doc doc' : Document, doc.Resting ∧
    doc.caret.place = ⟨⟨1⟩, 1⟩ ∧ doc.delete .right = .ok (doc', []) ∧
    (Deletion.dissolved ⟨0⟩).Describes doc.formula doc'.formula ∧
    doc.formula.leavesBefore doc.caret.place = [⟨1⟩] ∧
    doc'.formula.leavesBefore doc'.caret.place = [] := by
  have hrest := resting_in_fraction (.inl rfl)
  obtain ⟨doc', hdelete, hdesc⟩ := hrest.dissolves_fraction (d := .right) rfl (by decide) rfl rfl
  refine ⟨_, doc', hrest, rfl, hdelete, hdesc, by decide, ?_⟩
  have hread : (Document.delete ((ofNodes [.frac [.paren '('] [.binary .plus]] false).moveCaret
      ⟨⟨1⟩, 1⟩) .right).map (fun r => r.1.formula.leavesBefore r.1.caret.place) = .ok [] := by
    decide
  rw [hdelete] at hread
  exact Except.ok.inj hread

end Document

end FormulaEditor
