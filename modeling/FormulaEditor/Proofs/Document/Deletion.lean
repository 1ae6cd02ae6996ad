import FormulaEditor.Proofs.Document.Delete
import FormulaEditor.Proofs.Document.Embedding
import FormulaEditor.Proofs.Formula.GivingWay
import FormulaEditor.Proofs.Session.Ignored

/-!
# What a deletion comes to

Without a selection, a deletion does nothing, removes a leaf, takes an element apart or takes one
half from scripts. The two formulas tell which of these it was, so it is never two of them.
-/

namespace FormulaEditor

/-- What a deletion comes to. -/
inductive Deletion where
  | nothing
  /-- An element without lists is gone. -/
  | removed (e : ElementId)
  /-- An element with lists has given way to what they held. -/
  | dissolved (e : ElementId)
  /-- Scripts have lost one of two halves. -/
  | halved (e : ElementId) (half : ListId)
deriving DecidableEq, Repr

namespace Deletion

open Formula

variable {f g : Formula} {e x : ElementId} {i l half : ListId} {new : List ElementId}
  {o o' : Deletion} {pending pending' : List ElementId}

/-- The second formula is what the deletion leaves of the first one. What an element held comes in its
place in the order of its lists; what a half of scripts held comes directly behind the scripts if it
was the exponent, and directly before them if it was the subscript. -/
inductive Describes (f g : Formula) : Deletion → Prop
  | nothing (h : g = f) : Describes f g nothing
  | removed {l : ListId} {e : ElementId} (hlists : f.listsOf e = [])
    (hsame : g.element e = f.element e) (h : f.GivesWay g l e [] []) : Describes f g (removed e)
  | dissolved {l : ListId} {e : ElementId} (hlists : f.listsOf e ≠ [])
    (hsame : g.element e = f.element e)
    (h : f.GivesWay g l e ((f.listsOf e).flatMap f.elements) (f.listsOf e)) :
    Describes f g (dissolved e)
  | exponent {l exponent subscript : ListId} {e : ElementId} {acceptor acceptor' : Option ListId}
    (hfrom : f.element e = .scripts (some exponent) (some subscript) acceptor)
    (hto : g.element e = .scripts none (some subscript) acceptor')
    (h : f.GivesWay g l e (e :: f.elements exponent) [exponent]) : Describes f g (halved e exponent)
  | subscript {l exponent subscript : ListId} {e : ElementId} {acceptor acceptor' : Option ListId}
    (hfrom : f.element e = .scripts (some exponent) (some subscript) acceptor)
    (hto : g.element e = .scripts (some exponent) none acceptor')
    (h : f.GivesWay g l e (f.elements subscript ++ [e]) [subscript]) :
    Describes f g (halved e subscript)

/-! ## Where things have gone -/

theorem accounts_removed (h : f.listsOf e = []) : f.Accounts g e [] [] :=
  ⟨by simp, by simp, by simp, by simp [h]⟩

/-- An element does not stand in one of its own lists. -/
theorem not_mem_held (hf : f.Sound pending) (hl : f.Reachable l) (he : e ∈ f.elements l) :
    e ∉ (f.listsOf e).flatMap f.elements := by
  intro hc
  obtain ⟨i, hi, hei⟩ := List.mem_flatMap.mp hc
  obtain rfl := hf.eq_of_mem he hei
  exact hf.not_mem_listsOf hl he hi

theorem accounts_dissolved (hf : f.Sound pending) (hl : f.Reachable l) (he : e ∈ f.elements l) :
    f.Accounts g e ((f.listsOf e).flatMap f.elements) (f.listsOf e) where
  mem_listsOf _ hi := hi
  mem_new _ _ := List.mem_flatMap
  stays hnew := absurd hnew (not_mem_held hf hl he)
  goes _ _ hi := hi

theorem accounts_halved (hmem : half ∈ f.listsOf e)
    (hnew : ∀ x, x ∈ new ↔ x = e ∨ x ∈ f.elements half)
    (hlists : ∀ i, i ∈ g.listsOf e ↔ i ∈ f.listsOf e ∧ i ≠ half) : f.Accounts g e new [half] where
  mem_listsOf := by simpa using hmem
  mem_new x hne := by simp [hnew, hne]
  stays _ := by simpa using hlists
  goes hc := absurd ((hnew e).mpr (.inl rfl)) hc

/-- The element that is gone. -/
def gone? : Deletion → Option ElementId
  | removed e | dissolved e => some e
  | nothing | halved _ _ => none

/-- The half that is gone, with the scripts that had it. -/
def lost? : Deletion → Option (ElementId × ListId)
  | halved e half => some (e, half)
  | nothing | removed _ | dissolved _ => none

namespace Describes

section

variable (hf : f.Sound pending)

include hf

/-- What the deletions that do something have in common: an element gives way, for good or but for
one half. -/
theorem exists_givesWay (h : o.Describes f g) (ho : o ≠ .nothing) : ∃ l e new gone,
    f.GivesWay g l e new gone ∧ f.Accounts g e new gone ∧
      (e ∉ new ∧ (o = .removed e ∧ f.listsOf e = [] ∨ o = .dissolved e ∧ f.listsOf e ≠ []) ∨
        e ∈ new ∧ ∃ half, o = .halved e half ∧ gone = [half] ∧ g.listsOf e ≠ []) := by
  cases h with
  | nothing => exact absurd rfl ho
  | removed hlists hsame h =>
    exact ⟨_, _, _, _, h, accounts_removed hlists, .inl ⟨by simp, .inl ⟨rfl, hlists⟩⟩⟩
  | dissolved hlists hsame h =>
    exact ⟨_, _, _, _, h, accounts_dissolved hf h.reachable h.mem,
      .inl ⟨not_mem_held hf h.reachable h.mem, .inr ⟨rfl, hlists⟩⟩⟩
  | @exponent l exponent subscript e acceptor acceptor' hfrom hto h =>
    obtain ⟨hlists, hne⟩ := hf.halves_ne h.mem hfrom
    have hlists' : g.listsOf e = [subscript] := by
      rw [listsOf, hto]
      rfl
    refine ⟨_, _, _, _, h, accounts_halved (by simp [hlists]) (by simp) fun i => ?_,
      .inr ⟨by simp, exponent, rfl, rfl, by simp [hlists']⟩⟩
    rw [hlists, hlists']
    grind
  | @subscript l exponent subscript e acceptor acceptor' hfrom hto h =>
    obtain ⟨hlists, hne⟩ := hf.halves_ne h.mem hfrom
    have hlists' : g.listsOf e = [exponent] := by
      rw [listsOf, hto]
      rfl
    refine ⟨_, _, _, _, h, accounts_halved (by simp [hlists]) (by simp [or_comm]) fun i => ?_,
      .inr ⟨by simp, subscript, rfl, rfl, by simp [hlists']⟩⟩
    rw [hlists, hlists']
    grind

/-- The element that is gone was part of the formula and is not any more. -/
theorem gone?_eq_some (h : o.Describes f g) : o.gone? = some x ↔
    (∃ k, f.Reachable k ∧ x ∈ f.elements k) ∧ ¬∃ k, g.Reachable k ∧ x ∈ g.elements k := by
  by_cases ho : o = .nothing
  · subst ho
    cases h with
    | nothing h => simp [gone?, h]
  · obtain ⟨l, e, new, gone, hway, ha, hcase⟩ := h.exists_givesWay hf ho
    rw [hway.vanishes_iff hf ha]
    obtain ⟨hnew, ⟨rfl, -⟩ | ⟨rfl, -⟩⟩ | ⟨hnew, half, rfl, -⟩ := hcase
    · simp [gone?, hnew, eq_comm]
    · simp [gone?, hnew, eq_comm]
    · simp [gone?, hnew]

/-- The half that is gone was one of an element which is still there. -/
theorem lost?_eq_some (h : o.Describes f g) : o.lost? = some (x, i) ↔
    (∃ k, g.Reachable k ∧ x ∈ g.elements k) ∧ i ∈ f.listsOf x ∧ i ∉ g.listsOf x := by
  by_cases ho : o = .nothing
  · subst ho
    cases h with
    | nothing h => simp [lost?, h]
  · obtain ⟨l, e, new, gone, hway, ha, hcase⟩ := h.exists_givesWay hf ho
    rw [hway.loses_iff hf ha]
    obtain ⟨hnew, ⟨rfl, -⟩ | ⟨rfl, -⟩⟩ | ⟨hnew, half, rfl, rfl, -⟩ := hcase
    · simp [lost?, hnew]
    · simp [lost?, hnew]
    · simp [lost?, hnew, eq_comm]

/-- Two formulas tell which deletion lies between them. -/
theorem unique (h : o.Describes f g) (h' : o'.Describes f g) : o = o' := by
  have hgone : o.gone? = o'.gone? :=
    Option.ext fun x => (h.gone?_eq_some hf).trans (h'.gone?_eq_some hf).symm
  have hlost : o.lost? = o'.lost? :=
    Option.ext fun (x, i) => (h.lost?_eq_some hf).trans (h'.lost?_eq_some hf).symm
  cases o with
  | nothing =>
    cases o' with
    | nothing => rfl
    | removed | dissolved => cases hgone
    | halved => cases hlost
  | halved e half =>
    cases o' with
    | halved => cases hlost; rfl
    | nothing | removed | dissolved => cases hlost
  | removed e =>
    cases o' with
    | removed => cases hgone; rfl
    | nothing | halved => cases hgone
    | dissolved =>
      cases hgone
      cases h with
      | removed hlists => cases h' with
        | dissolved hlists' => exact absurd hlists hlists'
  | dissolved e =>
    cases o' with
    | dissolved => cases hgone; rfl
    | nothing | halved => cases hgone
    | removed =>
      cases hgone
      cases h with
      | dissolved hlists => cases h' with
        | removed hlists' => exact absurd hlists' hlists

variable (hg : g.Sound pending')

include hg

/-- Whatever is done makes the formula smaller. -/
theorem size_lt (h : o.Describes f g) (ho : o ≠ .nothing) :
    g.allElements.length + g.allLists.length < f.allElements.length + f.allLists.length := by
  obtain ⟨l, e, new, gone, hway, ha, ⟨hnew, -⟩ | ⟨-, half, -, rfl, -⟩⟩ := h.exists_givesWay hf ho
  · exact hway.size_lt hf ha hg (.inl hnew)
  · exact hway.size_lt hf ha hg (.inr ⟨half, by simp⟩)

/-- Unless a leaf is removed, all leaves are there still, each of them once. -/
theorem leaves_perm (h : o.Describes f g) (ho : ∀ e, o ≠ .removed e) : g.leaves.Perm f.leaves := by
  by_cases hn : o = .nothing
  · subst hn
    cases h with
    | nothing h => rw [h]
  · obtain ⟨l, e, new, gone, hway, ha, hcase⟩ := h.exists_givesWay hf hn
    obtain ⟨hnew, ⟨rfl, -⟩ | ⟨rfl, hlists⟩⟩ | ⟨hnew, half, rfl, rfl, hstays⟩ := hcase
    · exact absurd rfl (ho e)
    · exact hway.leaves_perm hf ha hg hlists fun hc => absurd hc hnew
    · exact hway.leaves_perm hf ha hg (List.ne_nil_of_mem (ha.mem_listsOf half (by simp)))
        fun _ => hstays

end

end Describes

/-! ## What the place decides -/

/-- Which deletion is made from a place that no element is left to enter at: a leaf beside it is
removed, and without one the element around the list is taken apart or loses a half. -/
inductive Decided (f : Formula) (q : Place) (d : Direction) : Deletion → Prop
  | nothing (ha : f.adjacent? q d = none) (ho : f.owner q.list = none) : Decided f q d nothing
  | removed {i : Nat} {e : ElementId} (ha : f.adjacent? q d = some (i, e))
    (hlists : f.listsOf e = []) : Decided f q d (removed e)
  | dissolved {e : ElementId} (ha : f.adjacent? q d = none) (ho : f.owner q.list = some e)
    (hx : ∀ exponent subscript acceptor,
      f.element e ≠ .scripts (some exponent) (some subscript) acceptor) : Decided f q d (dissolved e)
  | halved {e : ElementId} {exponent subscript : ListId} {acceptor : Option ListId}
    (ha : f.adjacent? q d = none) (ho : f.owner q.list = some e)
    (hx : f.element e = .scripts (some exponent) (some subscript) acceptor) :
    Decided f q d (halved e q.list)

theorem exists_decided {f : Formula} {q : Place} {d : Direction}
    (hleaf : ∀ i e, f.adjacent? q d = some (i, e) → f.listsOf e = []) : ∃ o, Decided f q d o := by
  cases ha : f.adjacent? q d with
  | some x => exact ⟨_, .removed ha (hleaf x.1 x.2 ha)⟩
  | none =>
    cases ho : f.owner q.list with
    | none => exact ⟨_, .nothing ha ho⟩
    | some e =>
      by_cases hx : ∃ exponent subscript acceptor,
          f.element e = .scripts (some exponent) (some subscript) acceptor
      · obtain ⟨exponent, subscript, acceptor, hx⟩ := hx
        exact ⟨_, .halved ha ho hx⟩
      · exact ⟨_, .dissolved ha ho fun exponent subscript acceptor he =>
          hx ⟨exponent, subscript, acceptor, he⟩⟩

end Deletion

namespace Formula

variable {f g : Formula} {e : ElementId} {l : ListId} {p : Place} {d : Direction} {i n depth : Nat}
  {es contents : List ElementId} {x : Element} {half outer : ListId} {pending : List ElementId}

/-! ## Where a deletion ends up -/

theorem listsOf_of_boundary? (h : (f.element e).boundary? d = none) : f.listsOf e = [] := by
  unfold Element.boundary? at h
  split at h
  · exact List.getLast?_eq_none_iff.mp h
  · exact List.head?_eq_none_iff.mp h

/-- Every element on the way is entered: what is beside the place in the end has no lists. -/
theorem Sound.listsOf_adjacent (hf : f.Sound pending) (hn : f.Below n f.root p.list)
    (hd : f.listSlots.size ≤ n + depth)
    (ha : f.adjacent? (f.deletionPlace d depth p) d = some (i, e)) : f.listsOf e = [] := by
  induction depth generalizing n p with
  | zero => exact absurd (hf.depth_lt hn) (by omega)
  | succ depth ih =>
    unfold deletionPlace at ha
    split at ha
    · rename_i inner h
      obtain ⟨⟨j, e'⟩, ha', hb⟩ := Option.bind_eq_some_iff.mp h
      have he := List.mem_of_getElem? (adjacent?_eq_some.mp ha').2
      have hinner : f.Below (n + 1) f.root (f.entering d inner).list := by
        have := hn.inside he (mem_lists_of_boundary? hb)
        unfold entering
        split <;> exact this
      exact ih hinner (by omega) ha
    · rename_i h
      rw [ha] at h
      exact listsOf_of_boundary? h

theorem entering_list (f : Formula) (d : Direction) (l : ListId) : (f.entering d l).list = l := by
  unfold entering
  split <;> rfl

/-- With nothing beside it, a deletion ends up where it begins. -/
theorem deletionPlace_of_adjacent (depth : Nat) (ha : f.adjacent? p d = none) :
    f.deletionPlace d depth p = p := by
  cases depth with
  | zero => rfl
  | succ depth =>
    unfold deletionPlace
    rw [ha]
    rfl

/-- A deletion ends up where it begins, or where it has entered a list further inside. -/
theorem deletionPlace_eq_or (depth : Nat) (p : Place) : f.deletionPlace d depth p = p ∨
    ∃ n l, f.Below (n + 1) p.list l ∧ f.deletionPlace d depth p = f.entering d l := by
  induction depth generalizing p with
  | zero => exact .inl rfl
  | succ depth ih =>
    unfold deletionPlace
    split
    · rename_i inner h
      obtain ⟨⟨j, e⟩, ha, hb⟩ := Option.bind_eq_some_iff.mp h
      have he := List.mem_of_getElem? (adjacent?_eq_some.mp ha).2
      have hinner := mem_lists_of_boundary? hb
      right
      obtain heq | ⟨n, l, hn, heq⟩ := ih (f.entering d inner)
      · exact ⟨0, inner, (Below.here p.list).inside he hinner, heq⟩
      · rw [entering_list] at hn
        exact ⟨n + 1, l, hn.head he hinner, heq⟩
    · exact .inl rfl

/-- Sideways, there is nothing beside a place of the root just at the edge. -/
theorem atEdge_iff (hp : p.pos ≤ f.length p.list) (hd : d.isVertical = false) :
    f.AtEdge p d ↔ p.list = f.root ∧ f.adjacent? p d = none := by
  obtain ⟨l, pos⟩ := p
  cases d with
  | left =>
    cases pos with
    | zero => simp [AtEdge, startOf, adjacent?, adjacentIndex?]
    | succ i =>
      have hlt : i < (f.elements l).length := hp
      simp [AtEdge, startOf, adjacent?, adjacentIndex?, hlt]
  | right =>
    have hle : pos ≤ (f.elements l).length := hp
    simp only [AtEdge, endOf, adjacent?, adjacentIndex?]
    by_cases hl : l = f.root
    · subst hl
      obtain hlt | rfl := Nat.lt_or_eq_of_le hle
      · have hne : pos ≠ f.length f.root := Nat.ne_of_lt hlt
        simp [hlt, hne]
      · simp [length]
    · simp [hl]
  | up | down => cases hd

/-! ## How an element gives way -/

/-- An element splits its list at its index. -/
theorem exists_split (he : (f.elements l)[i]? = some e) :
    ∃ before after, f.elements l = before ++ e :: after ∧ before.length = i := by
  obtain ⟨hlt, hget⟩ := List.getElem?_eq_some_iff.mp he
  refine ⟨(f.elements l).take i, (f.elements l).drop (i + 1), ?_, ?_⟩
  · rw [← hget, ← List.drop_eq_getElem_cons hlt, List.take_append_drop]
  · rw [List.length_take]
    omega

/-- Replacing a run around an element, once lists of it may have been emptied, makes it give way. -/
theorem givesWay_of_replaced {v : Formula} {before after new : List ElementId} {gone : List ListId}
    {start stop : Nat} (hr : f.Reachable l) (hhas : v.HasList l) (hroot : v.root = f.root)
    (hel : ∀ i ∉ gone, v.elements i = f.elements i) (helement : ∀ y ≠ e, v.element y = f.element y)
    (hsplit : f.elements l = before ++ e :: after)
    (hrep : v.replaced l start stop es = before ++ (new ++ after)) :
    f.GivesWay (v.replaceRange l start stop es).1 l e new gone where
  root := root_replaceRange.trans hroot
  reachable := hr
  list := ⟨before, after, hsplit, by rw [elements_replaceRange hhas, if_pos rfl, hrep]⟩
  elements i hi hgone := by rw [elements_replaceRange hhas, if_neg hi.symm, hel i hgone]
  element y hy := by rw [element_replaceRange, helement y hy]

/-- Taking one element out. -/
theorem givesWay_remove (hr : f.Reachable l) (he : (f.elements l)[i]? = some e) :
    f.GivesWay (f.replaceRange l i (i + 1) []).1 l e [] [] := by
  obtain ⟨before, after, hsplit, rfl⟩ := exists_split he
  refine givesWay_of_replaced hr (hasList_of_mem (List.mem_of_getElem? he)) rfl (fun _ _ => rfl)
    (fun _ _ => rfl) hsplit ?_
  simp [replaced, hsplit]

/-- Taking an element apart. -/
theorem Vacated.givesWay (hf : f.Tidy) (hr : f.Reachable outer) (hp : f.parent e = some outer)
    (hv : f.Vacated e (f.listsOf e) g contents) :
    f.GivesWay (g.replaceRange outer (f.position e) (f.position e + 1) contents).1 outer e contents
      (f.listsOf e) := by
  have hhas := hv.linked.hasList (hv.stays hf hr hp fun _ h => h).1
  have hel := hv.elements_outer hf hr hp fun _ h => h
  obtain ⟨before, after, hsplit, hlen⟩ := exists_split (hf.getElem?_position hp)
  refine givesWay_of_replaced hr hhas hv.root hv.elements (fun y _ => hv.element y) hsplit ?_
  simp [replaced, hel, hsplit, ← hlen]

theorem hasList_setElement {x : Element} : (f.setElement e x).HasList l ↔ f.HasList l :=
  Iff.rfl

theorem elements_setElement {x : Element} : (f.setElement e x).elements l = f.elements l :=
  rfl

theorem root_setElement {x : Element} : (f.setElement e x).root = f.root :=
  rfl

/-- Taking what a half of scripts held out beside them. -/
theorem givesWay_halve (hf : f.Tidy) (hr : f.Reachable outer) (hp : f.parent e = some outer)
    (hhalf : half ∈ f.listsOf e) (x : Element) {pos : Nat} {new : List ElementId}
    (hpos : pos = f.position e + 1 ∧ new = e :: f.elements half ∨
      pos = f.position e ∧ new = f.elements half ++ [e]) :
    f.GivesWay (((f.vacate half).setElement e x).replaceRange outer pos pos (f.elements half)).1
      outer e new [half] := by
  have howner := hf.owner_of_mem (hf.mem_elements.mpr hp) hhalf
  have hv := Vacated.single hf.toSound howner
  have hsub : ∀ l ∈ [half], l ∈ f.listsOf e := by simpa using hhalf
  have hhas : ((f.vacate half).setElement e x).HasList outer :=
    hasList_setElement.mpr (hv.linked.hasList (hv.stays hf hr hp hsub).1)
  obtain ⟨before, after, hsplit, hlen⟩ := exists_split (hf.getElem?_position hp)
  have houter : ((f.vacate half).setElement e x).elements outer = f.elements outer :=
    elements_setElement.trans (hv.elements_outer hf hr hp hsub)
  refine givesWay_of_replaced hr hhas (root_setElement.trans root_vacate) (fun i hi => ?_)
    (fun y hy => ?_) hsplit ?_
  · rw [elements_setElement, elements_vacate_of_ne (hasList_of_owner howner) (by simpa using hi)]
  · rw [element_setElement, if_neg fun hc => hy hc.1.symm, element_vacate]
  · rw [replaced, houter, hsplit]
    obtain ⟨rfl, rfl⟩ | ⟨rfl, rfl⟩ := hpos
    · have htake : before.take (before.length + 1) = before := List.take_of_length_le (by omega)
      have hdrop : before.drop (before.length + 1) = [] := List.drop_eq_nil_of_le (by omega)
      simp [← hlen, List.take_append, List.drop_append, htake, hdrop]
    · simp [← hlen]

end Formula

namespace Document

open Formula

variable {doc : Document} {p : Place} {d : Direction} {e : ElementId} {o : Deletion} {i : Nat}
  {outer exponent subscript half : ListId} {acceptor : Option ListId}

/-- Scripts go on as `x` once a half is taken, and what that held goes in beside them. -/
theorem insertElements_halved (hf : doc.formula.Tidy) (hr : doc.formula.Reachable outer)
    (hp : doc.formula.parent e = some outer) (hhalf : half ∈ doc.formula.listsOf e) (x : Element)
    {pos : Nat} (behind : Bool) {new : List ElementId}
    (hpos : pos = doc.formula.position e + 1 ∧ new = e :: doc.formula.elements half ∨
      pos = doc.formula.position e ∧ new = doc.formula.elements half ++ [e]) :
    ∃ doc', insertElements { doc with formula := (doc.formula.vacate half).setElement e x } outer pos
        (doc.formula.elements half) behind = .ok doc' ∧
      doc'.formula.element e = x ∧ doc.formula.GivesWay doc'.formula outer e new [half] := by
  have hmem := hf.mem_elements.mpr hp
  have hv := Vacated.single hf.toSound (hf.owner_of_mem hmem hhalf)
  have hlength : (doc.formula.vacate half).length outer = doc.formula.length outer :=
    congrArg List.length (hv.elements_outer hf hr hp (by simpa using hhalf))
  have hlt := hf.position_lt hp
  have hle : pos ≤ ((doc.formula.vacate half).setElement e x).length outer := by
    rw [length_setElement, hlength]
    omega
  refine ⟨_, insertElements_eq hle, ?_, givesWay_halve hf hr hp hhalf x hpos⟩
  rw [moveCaret, element_replaceRange, element_setElement,
    if_pos ⟨rfl, hasElement_vacate.mpr (hf.hasElement hmem)⟩]

/-- Taking a half from scripts with two. -/
theorem describes_dropHalf (hf : doc.formula.Tidy) (hr : doc.formula.Reachable outer)
    (hp : doc.formula.parent e = some outer)
    (he : doc.formula.element e = .scripts (some exponent) (some subscript) acceptor)
    (hhalf : half = exponent ∨ half = subscript) :
    ∃ doc', doc.dropHalf e outer half exponent subscript acceptor = .ok doc' ∧
      (Deletion.halved e half).Describes doc.formula doc'.formula := by
  obtain ⟨hlists, hne⟩ := hf.toSound.halves_ne (hf.mem_elements.mpr hp) he
  have hin : half ∈ doc.formula.listsOf e := by simpa [hlists] using hhalf
  unfold Document.dropHalf
  obtain rfl | rfl := hhalf
  · obtain ⟨doc', heq, helement, hway⟩ := insertElements_halved hf hr hp hin
      (.scripts none (some subscript) (if acceptor = some half then some subscript else acceptor))
      false (.inl ⟨rfl, rfl⟩)
    refine ⟨doc', ?_, .exponent he helement hway⟩
    rw [← heq]
    simp only [↓reduceIte, Vacated.drain_snd]
    rfl
  · obtain ⟨doc', heq, helement, hway⟩ := insertElements_halved hf hr hp hin
      (.scripts (some exponent) none (if acceptor = some half then some exponent else acceptor))
      true (.inr ⟨rfl, rfl⟩)
    refine ⟨doc', ?_, .subscript he helement hway⟩
    rw [← heq]
    simp only [if_neg hne, Vacated.drain_snd]
    rfl

/-- Where the caret goes when an element goes: to where a leaf stood, or to where the contents of the
list begin in which the deletion ended up. -/
def FollowsDeletion (doc : Document) (q : Place) (d : Direction) (p : Place) (o : Deletion) : Prop :=
  match o with
  | .removed e => ∃ i, doc.formula.adjacent? q d = some (i, e) ∧ p = ⟨q.list, i⟩
  | .dissolved e => ∃ outer left right, doc.formula.Reachable outer ∧
    doc.formula.parent e = some outer ∧ doc.formula.listsOf e = left ++ q.list :: right ∧
    p = ⟨outer, doc.formula.position e + (left.flatMap doc.formula.elements).length⟩
  | .nothing | .halved _ _ => True

/-- What is decided is what is done. -/
theorem Resting.deleteFrom_decided (h : doc.Resting) (hp : doc.formula.IsPlace p) {q : Place}
    (hq : q = doc.formula.deletionPlace d doc.formula.listSlots.size p)
    (hdecided : Deletion.Decided doc.formula q d o) :
    ∃ doc', doc.deleteFrom p d = .ok doc' ∧ o.Describes doc.formula doc'.formula ∧
      doc.FollowsDeletion q d doc'.caret.place o := by
  have hf := h.formula
  have hplace : doc.formula.IsPlace q := hq ▸ isPlace_deletionPlace doc.formula.listSlots.size hp
  have howner : ∀ e, doc.formula.owner q.list = some e → ∃ outer,
      doc.formula.parent e = some outer ∧ doc.formula.Reachable outer ∧
        q.list ∈ doc.formula.listsOf e := fun e ho => by
    obtain ⟨outer, hpe, hr⟩ := hf.toSound.outer_of_reachable hplace.reachable ho
    exact ⟨outer, hpe, hr, hf.toSound.mem_listsOf_of_reachable hplace.reachable ho⟩
  unfold Document.deleteFrom
  simp only [← hq, formula_moveCaret]
  cases hdecided with
  | nothing ha ho =>
    rw [ha]
    simp only [ho]
    exact ⟨_, rfl, .nothing rfl, trivial⟩
  | @removed i e ha hlists =>
    have he := (adjacent?_eq_some.mp ha).2
    have hlt : i < doc.formula.length q.list := (List.getElem?_eq_some_iff.mp he).1
    have hsplice : (doc.moveCaret q).splice q.list i (i + 1) [] = _ := splice_eq (Nat.le_succ i) hlt
    rw [ha]
    simp only [hsplice]
    exact ⟨_, rfl, .removed hlists element_replaceRange (givesWay_remove hplace.reachable he),
      i, ha, rfl⟩
  | @dissolved e ha ho hx =>
    obtain ⟨outer, hpe, hr, hmem⟩ := howner e ho
    obtain ⟨left, right, hlists⟩ := List.append_of_mem hmem
    have hf : (doc.moveCaret q).formula.Tidy := hf
    obtain ⟨g, hv, heq⟩ := dissolve_eq hf hr hpe hlists hx
    rw [ha]
    simp only [ho]
    exact ⟨_, heq, .dissolved (List.ne_nil_of_mem hmem) (element_replaceRange.trans (hv.element e))
      (hv.givesWay hf hr hpe), outer, left, right, hr, hpe, hlists, rfl⟩
  | @halved e exponent subscript acceptor ha ho hx =>
    obtain ⟨outer, hpe, hr, hmem⟩ := howner e ho
    have hhalf : q.list = exponent ∨ q.list = subscript := by
      simpa [listsOf, hx, Element.lists] using hmem
    have hf : (doc.moveCaret q).formula.Tidy := hf
    obtain ⟨doc', heq, hdesc⟩ := describes_dropHalf hf hr hpe hx hhalf
    have hdissolve : (doc.moveCaret q).dissolve e q.list =
        (doc.moveCaret q).dropHalf e outer q.list exponent subscript acceptor := by
      unfold Document.dissolve
      rw [formula_moveCaret, hpe, hx]
    rw [ha]
    simp only [ho]
    exact ⟨doc', hdissolve.trans heq, hdesc, trivial⟩

/-- Without a selection, deleting succeeds and does what the place decides at which it ends up. -/
theorem Resting.delete_decided (h : doc.Resting) (hd : d.isVertical = false) {q : Place}
    (hq : q = doc.formula.deletionPlace d doc.formula.listSlots.size doc.caret.place) :
    ∃ doc' o, doc.delete d = .ok (doc', []) ∧ doc'.Resting ∧ Deletion.Decided doc.formula q d o ∧
      o.Describes doc.formula doc'.formula ∧
      doc.FollowsDeletion q d doc'.caret.place o := by
  obtain ⟨n, hn⟩ := h.caret.place.reachable
  obtain ⟨o, ho⟩ := Deletion.exists_decided (q := q) (d := d) fun i e ha =>
    h.formula.toSound.listsOf_adjacent hn (by omega) (hq ▸ ha)
  obtain ⟨doc', heq, hdesc, hcaret⟩ := h.deleteFrom_decided h.caret.place hq ho
  have hsel : doc.caret.selected? doc.formula = .ok none := by
    rw [Caret.selected?, h.selecting]
    rfl
  have hin : doc.deleteIn doc.caret.place.list d = .ok doc' := by
    unfold Document.deleteIn
    rw [hd]
    simpa using heq
  have hdelete : doc.delete d = .ok (doc', []) := by
    rw [Document.delete, hsel]
    simp only [h.selecting]
    exact congrArg (· >>= fun doc' => .ok (doc', [])) hin
  exact ⟨doc', o, hdelete, (h.toValid.delete hd).of_eq_ok hdelete, ho, hdesc, hcaret⟩

/-- Nothing is done just at the edge of the formula. -/
theorem decided_nothing_iff (h : doc.Resting) (hd : d.isVertical = false) {q : Place}
    (hq : q = doc.formula.deletionPlace d doc.formula.listSlots.size doc.caret.place)
    (ho : Deletion.Decided doc.formula q d o) :
    o = .nothing ↔ doc.formula.AtEdge doc.caret.place d := by
  have hf := h.formula.toSound
  have hplace := h.caret.place
  rw [atEdge_iff hplace.le_length hd]
  constructor
  · rintro rfl
    cases ho with
    | nothing ha ho =>
      obtain heq | ⟨n, l, hn, heq⟩ :=
        deletionPlace_eq_or (f := doc.formula) (d := d) doc.formula.listSlots.size doc.caret.place
      · rw [hq, heq] at ha ho
        exact ⟨hf.eq_root_of_owner hplace.reachable ho, ha⟩
      · rw [hq, heq, entering_list] at ho
        cases hn with
        | inside _ he hi => simp [hf.owner_of_mem he hi] at ho
  · rintro ⟨hroot, hnone⟩
    obtain rfl : q = doc.caret.place :=
      hq.trans (deletionPlace_of_adjacent doc.formula.listSlots.size hnone)
    have howner : doc.formula.owner doc.caret.place.list = none := hroot ▸ hf.root_owner
    cases ho with
    | nothing => rfl
    | removed ha => simp [hnone] at ha
    | dissolved _ ho => simp [howner] at ho
    | halved _ ho => simp [howner] at ho

end Document

end FormulaEditor
