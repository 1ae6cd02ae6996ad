import FormulaEditor.Proofs.Document.Insert
import FormulaEditor.Proofs.Formula.Root
import FormulaEditor.Proofs.Symbol.Word
import FormulaEditor.Proofs.Text.Characters

/-!
# Writing figures

A minus, a digit or a point that is written at the end of the root stays what it is. Words are read
again after each of them, but the run that is read reaches back no further than to an element that
is not text, and figures spell no word. So figures pile up at the end of the root, one element for
each, while the rest of the formula is left alone.
-/

namespace FormulaEditor

/-- A minus, a digit or a point. -/
def Node.IsFigure (n : Node) : Prop :=
  n = .binary .minus ∨ ∃ c, (c.isDigit = true ∨ c = '.') ∧ n = .ofChar c

/-- Text of this kind is a single character, and no letter. -/
def Kind.Letterless (k : Kind) : Prop :=
  ∀ text, k.text? = some text → ∃ c, text = String.singleton c ∧ c.isAlpha = false

namespace Node.IsFigure

variable {n : Node}

theorem filled (h : n.IsFigure) : Node.EveryNode Node.Filled [n] := by
  rcases h with rfl | ⟨c, -, rfl⟩ <;>
    exact Node.everyNode_filled trivial (by simp [Node.lists, Node.ofChar])

theorem acceptor?_element (h : n.IsFigure) (ls : List ListId) :
    (n.element ls).acceptor? = none := by
  rcases h with rfl | ⟨c, -, rfl⟩ <;> rfl

/-- What holds of the ten digits and the point holds of the characters of figures. -/
theorem of_char {p : Char → Prop} {c : Char} (hdigits : ∀ n < 10, p (Char.ofNat ('0'.toNat + n)))
    (hpoint : p '.') (hc : c.isDigit = true ∨ c = '.') : p c := by
  rcases hc with hc | rfl
  · exact Text.of_isDigit hdigits hc
  · exact hpoint

/-- Figures have no italic form, so they are stored as they are. -/
theorem kind_ofChar {c : Char} (hc : c.isDigit = true ∨ c = '.') :
    (Node.ofChar c).kind = .atom (String.singleton c) :=
  of_char (p := fun c => (Node.ofChar c).kind = .atom (String.singleton c)) (by decide +kernel)
    (by decide +kernel) hc

theorem letterless (h : n.IsFigure) : n.kind.Letterless := by
  intro text htext
  rcases h with rfl | ⟨c, hc, rfl⟩
  · simp [Node.kind, Kind.text?] at htext
  · rw [kind_ofChar hc] at htext
    refine ⟨c, (Option.some.inj htext).symm, ?_⟩
    exact of_char (p := fun c => c.isAlpha = false) (by decide) (by decide) hc

/-- An element of the kind of a figure reads as the figure. -/
theorem snapshot_eq {f : Formula} {e : ElementId} (h : n.IsFigure) (he : f.kind e = n.kind) :
    f.snapshot e = n := by
  rcases h with rfl | ⟨c, hc, rfl⟩
  · exact Formula.snapshot_eq_binary.mpr he
  · rw [kind_ofChar hc] at he
    exact Formula.snapshot_of_kind_atom he

theorem map_snapshot_eq {f : Formula} {es : List ElementId} {ns : List Node}
    (h : ∀ n ∈ ns, n.IsFigure) (hes : es.map f.kind = ns.map Node.kind) :
    es.map f.snapshot = ns := by
  induction ns generalizing es with
  | nil => simpa using hes
  | cons n ns ih =>
    obtain ⟨hn, hns⟩ := List.forall_mem_cons.mp h
    cases es with
    | nil => cases hes
    | cons e es =>
      obtain ⟨he, hes⟩ := List.cons.inj hes
      rw [List.map_cons, hn.snapshot_eq he, ih hns hes]

end Node.IsFigure

namespace Formula

variable {f : Formula} {l : ListId} {before es : List ElementId} {q : ElementId}

theorem replaced_length : f.replaced l (f.length l) (f.length l) es = f.elements l ++ es := by
  simp [replaced, length]

/-- The text that a list ends in. -/
def lastText (f : Formula) (l : ListId) : List ElementId :=
  ((f.elements l).reverse.takeWhile f.isText).reverse

/-- At the end of a list, the run of text is the text it ends in. -/
theorem textRun_length :
    f.textRun l (f.length l) = .ok (f.length l - (f.lastText l).length, f.length l) := by
  simp [textRun, lastText, length]

theorem lastText_suffix : f.lastText l <:+ f.elements l := by
  rw [lastText, ← List.reverse_prefix, List.reverse_reverse]
  exact List.takeWhile_prefix f.isText

theorem take_drop_lastText : ((f.elements l).drop (f.length l - (f.lastText l).length)).take
    (f.length l - (f.length l - (f.lastText l).length)) = f.lastText l := by
  have hsuffix : f.lastText l = (f.elements l).drop (f.length l - (f.lastText l).length) :=
    List.suffix_iff_eq_drop.mp lastText_suffix
  have hle : (f.lastText l).length ≤ f.length l := lastText_suffix.length_le
  rw [← hsuffix]
  exact List.take_of_length_le (by omega)

/-- What is not text ends the run. -/
theorem lastText_subset (hl : f.elements l = before ++ q :: es) (hq : f.isText q = false) :
    f.lastText l ⊆ es := by
  intro e he
  have hrun : e ∈ (es.reverse ++ q :: before.reverse).takeWhile f.isText := by
    simpa [lastText, hl] using he
  rw [List.takeWhile_append] at hrun
  split at hrun
  · simpa [hq] using hrun
  · exact List.mem_reverse.mp ((List.takeWhile_prefix f.isText).subset hrun)

end Formula

theorem firstDifference?_self (names : List String) : firstDifference? names names = none := by
  induction names with
  | nil => rfl
  | cons name names ih => simpa [firstDifference?, List.findIdx?_cons] using ih

/-- A run of characters is read as it stands if none of them is a letter. -/
theorem firstDifference?_of_letterless {texts : List String}
    (h : ∀ text ∈ texts, ∃ c, text = String.singleton c ∧ c.isAlpha = false) :
    firstDifference? (Symbol.splitWords (String.join texts)) texts = none := by
  obtain ⟨cs, hcs, rfl⟩ : ∃ cs : List Char, (∀ c ∈ cs, c.isAlpha = false) ∧
      texts = cs.map String.singleton := by
    induction texts with
    | nil => exact ⟨[], by simp⟩
    | cons text texts ih =>
      obtain ⟨⟨c, rfl, hc⟩, hrest⟩ := List.forall_mem_cons.mp h
      obtain ⟨cs, hcs, rfl⟩ := ih hrest
      exact ⟨c :: cs, List.forall_mem_cons.mpr ⟨hc, hcs⟩, rfl⟩
  have hjoin : (String.join (cs.map String.singleton)).toList = cs := by
    simp [String.toList_join, List.flatMap_map]
  have hwords : Symbol.splitWords (String.join (cs.map String.singleton)) =
      cs.map String.singleton := by
    rw [Symbol.splitWords_of_isAlpha_eq_false (by rwa [hjoin]), hjoin]
  rw [hwords, firstDifference?_self]

namespace Document

variable {doc : Document} {f : Formula} {l : ListId} {before es : List ElementId} {q : ElementId}
  {n : Node} {ns : List Node}

/-- A run that is read as it stands is left alone. -/
theorem convertWords_eq_self {left right : Nat}
    (hrun : doc.formula.textRun l doc.caret.place.pos = .ok (left, right))
    (hread : ∀ texts, texts = (((doc.formula.elements l).drop left).take (right - left)).filterMap
        (fun e => (doc.formula.kind e).text?) →
      firstDifference? (Symbol.splitWords (String.join texts)) texts = none) :
    doc.convertWords l = .ok doc := by
  unfold Document.convertWords
  simp only [hrun, bind, Except.bind]
  rw [hread _ rfl]

/-- At the end of a list, figures behind what is not text are read as they stand. -/
theorem convertWords_of_letterless (hpos : doc.caret.place.pos = doc.formula.length l)
    (hl : doc.formula.elements l = before ++ q :: es) (hq : doc.formula.isText q = false)
    (hes : ∀ e ∈ es, (doc.formula.kind e).Letterless) : doc.convertWords l = .ok doc := by
  have hrun := Formula.textRun_length (f := doc.formula) (l := l)
  rw [← hpos] at hrun
  refine convertWords_eq_self hrun fun texts htexts => firstDifference?_of_letterless ?_
  rw [htexts, hpos, Formula.take_drop_lastText]
  intro text htext
  obtain ⟨e, he, htext⟩ := List.mem_filterMap.mp htext
  exact hes e (Formula.lastText_subset hl hq he) text htext

/-! ## One figure after the other -/

/-- Figures are written behind an element of the root of the first formula, and the caret stands
behind them. What is in front of that element or inside elements is as it was. -/
structure Figures (f : Formula) (before : List ElementId) (q : ElementId) (ns : List Node)
    (doc : Document) : Prop where
  resting : doc.Resting
  retains : f.RetainsBelow doc.formula
  place : doc.caret.place = doc.formula.endOf f.root
  written : ∃ es, doc.formula.elements f.root = before ++ q :: es ∧
    es.map doc.formula.kind = ns.map Node.kind

/-- Without a selection, a node is planted and put in at the caret. -/
theorem Resting.insertNode_eq {d : Direction} (h : doc.Resting) :
    doc.insertNode n d = (doc.plant n).1.place (doc.plant n).2 := by
  have hgive : (doc.plant n).1.giveSelection (doc.plant n).2 d = .ok ((doc.plant n).1, none) := by
    rw [giveSelection, if_neg (by simpa [plant] using h.selecting)]
  show ((doc.plant n).1.giveSelection (doc.plant n).2 d >>= _) = _
  rw [hgive]
  rfl

/-- An element that takes no caret in and changes no word is put in and stepped past. -/
theorem place_eq {e : ElementId} {pos : Nat} (hplace : doc.caret.place = ⟨l, pos⟩)
    (hparent : doc.formula.parent e = none) (hpos : pos ≤ doc.formula.length l)
    (hacc : (doc.formula.element e).acceptor? = none)
    (hwords : (moveCaret { doc with formula := (doc.formula.replaceRange l pos pos [e]).1 }
      ⟨l, pos + 1⟩).convertWords l =
        .ok (moveCaret { doc with formula := (doc.formula.replaceRange l pos pos [e]).1 }
          ⟨l, pos + 1⟩)) :
    doc.place e = .ok (moveCaret { doc with formula := (doc.formula.replaceRange l pos pos [e]).1 }
      ⟨l, pos + 1⟩) := by
  have hacc' : ((doc.formula.replaceRange l pos pos [e]).1.element e).acceptor? = none := by
    rwa [Formula.element_replaceRange]
  unfold Document.place
  rw [hparent, hplace]
  simp only [Option.isSome_none, Bool.false_eq_true, ↓reduceIte, splice_eq (Nat.le_refl _) hpos,
    bind, Except.bind, hwords, ite_self]
  simp only [moveCaret, hacc']

namespace Figures

/-- Figures are read as they stand. -/
theorem convertWords_eq (h : doc.Figures f before q ns) (hq : f.HasElement q)
    (hnot : f.isText q = false) (hns : ∀ n ∈ ns, n.IsFigure) :
    doc.convertWords f.root = .ok doc := by
  obtain ⟨es, hes, hkinds⟩ := h.written
  have hend : doc.caret.place.pos = doc.formula.length f.root := congrArg Place.pos h.place
  have hq' : doc.formula.isText q = false := by
    rwa [Formula.isText, h.retains.kind hq]
  refine convertWords_of_letterless hend hes hq' fun e he => ?_
  have hmem : doc.formula.kind e ∈ ns.map Node.kind := hkinds ▸ List.mem_map_of_mem he
  obtain ⟨n, hn, heq⟩ := List.mem_map.mp hmem
  rw [← heq]
  exact (hns n hn).letterless

/-- One more element behind the figures is one more figure, if it is of that kind. -/
theorem put {g : Formula} {e : ElementId} (h : doc.Figures f before q ns) (hg : g.Tidy)
    (hgrows : doc.formula.Grows g) (hready : g.Ready [e]) (hkind : g.kind e = n.kind) :
    (moveCaret { doc with formula := (g.replaceRange f.root (g.length f.root)
      (g.length f.root) [e]).1 } ⟨f.root, g.length f.root + 1⟩).Figures f before q (ns ++ [n]) := by
  obtain ⟨es, hes, hkinds⟩ := h.written
  have hf := h.resting.formula
  have hroot : g.root = f.root := hgrows.root.trans h.retains.root
  have hlist : g.HasList f.root := hroot ▸ hg.root_hasList
  have hsame : g.elements f.root = before ++ q :: es := by
    rw [hgrows.elements (h.retains.root ▸ hf.root_hasList), hes]
  generalize hg' : (g.replaceRange f.root (g.length f.root) (g.length f.root) [e]).1 = g'
  have helements : g'.elements f.root = before ++ q :: (es ++ [e]) := by
    rw [← hg', Formula.elements_replaceRange hlist, if_pos rfl, Formula.replaced_length, hsame]
    simp
  have hend : (⟨f.root, g.length f.root + 1⟩ : Place) = g'.endOf f.root := by
    rw [Formula.endOf, Formula.length, Formula.length, helements, hsame]
    simp
    omega
  have hretains : f.RetainsBelow g' := by
    refine (h.retains.trans hgrows.retainsBelow).trans ?_
    rw [← hg', ← hroot]
    exact Formula.retainsBelow_replaceRange hg.root_hasList
  have hkind' : ∀ e, g'.kind e = g.kind e := fun e => by
    rw [← hg', Formula.kind, Formula.element_replaceRange, Formula.kind]
  have hold : es.map g'.kind = es.map doc.formula.kind := List.map_congr_left fun e he => by
    have hmem : e ∈ doc.formula.elements f.root := by simp [hes, he]
    rw [hkind', hgrows.retainsBelow.kind (hf.hasElement hmem)]
  have hreach : g'.Reachable f.root := hretains.root ▸ Formula.reachable_root
  have htidy : g'.Tidy := hg' ▸ hg.replaceRange hlist (Nat.le_refl _) hready
  rw [hend]
  refine ⟨h.resting.edit htidy (Formula.isPlace_endOf hreach), hretains, rfl, _, helements, ?_⟩
  show (es ++ [e]).map g'.kind = (ns ++ [n]).map Node.kind
  rw [List.map_append, List.map_append, hold, hkinds, List.map_singleton, hkind', hkind,
    List.map_singleton]

/-- One more figure is one more element at the end of the root. -/
theorem insertNode (h : doc.Figures f before q ns) (hq : f.HasElement q)
    (hnot : f.isText q = false) (hns : ∀ n ∈ ns, n.IsFigure) (hn : n.IsFigure) :
    Succeeds (doc.insertNode n .left) (Figures f before q (ns ++ [n])) := by
  have hf := h.resting.formula
  obtain ⟨ls, -, helement⟩ := Formula.element_plant hf.toSound n
  obtain ⟨hg, hgrows, hready⟩ := hf.plant hn.filled
  have hput := h.put hg hgrows hready (Formula.kind_plant hf.toSound n)
  have hall : ∀ m ∈ ns ++ [n], m.IsFigure :=
    List.forall_mem_append.mpr ⟨hns, List.forall_mem_singleton.mpr hn⟩
  have hplace : (doc.plant n).1.caret.place = ⟨f.root, (doc.formula.plant n).1.length f.root⟩ := by
    have hlist : doc.formula.HasList f.root := h.retains.root ▸ hf.root_hasList
    show doc.caret.place = _
    rw [h.place, Formula.endOf, Formula.length, Formula.length, hgrows.elements hlist]
  rw [h.resting.insertNode_eq]
  refine ⟨_, place_eq hplace ?_ (Nat.le_refl _) ?_ (hput.convertWords_eq hq hnot hall), hput⟩
  · exact hready.parent _ (List.mem_singleton_self _)
  · show ((doc.formula.plant n).1.element (doc.formula.plant n).2).acceptor? = none
    rw [helement]
    exact hn.acceptor?_element ls

/-- Figures are written one after the other. -/
theorem insertNodes {ms : List Node} (h : doc.Figures f before q ns) (hq : f.HasElement q)
    (hnot : f.isText q = false) (hns : ∀ n ∈ ns, n.IsFigure) (hms : ∀ m ∈ ms, m.IsFigure) :
    Succeeds (doc.insertNodes ms .left) (Figures f before q (ns ++ ms)) := by
  induction ms generalizing doc ns with
  | nil => exact .ok (by simpa using h)
  | cons m ms ih =>
    obtain ⟨hm, hms⟩ := List.forall_mem_cons.mp hms
    refine (h.insertNode hq hnot hns hm).bind fun doc' h' => ?_
    have hall : ∀ n ∈ ns ++ [m], n.IsFigure :=
      List.forall_mem_append.mpr ⟨hns, List.forall_mem_singleton.mpr hm⟩
    have hrest := ih h' hall hms
    rwa [List.append_assoc, List.singleton_append] at hrest

/-- The formula reads as before up to the element, and as the figures behind it. -/
theorem nodes_eq {rest : List ElementId} (h : doc.Figures f before q ns) (hf : f.Tidy)
    (hl : f.elements f.root = before ++ q :: rest) (hns : ∀ n ∈ ns, n.IsFigure) :
    doc.formula.nodes = before.map f.snapshot ++ f.snapshot q :: ns := by
  obtain ⟨es, hes, hkinds⟩ := h.written
  have hkept : ∀ e ∈ before ++ [q], doc.formula.snapshot e = f.snapshot e := by
    intro e he
    refine h.retains.snapshot hf.toSound ?_
    rw [hl]
    simp only [List.mem_append, List.mem_cons] at he ⊢
    tauto
  have hbefore : before.map doc.formula.snapshot = before.map f.snapshot :=
    List.map_congr_left fun e he => hkept e (List.mem_append_left _ he)
  rw [h.resting.formula.toSound.nodes_eq, h.retains.root, hes, List.map_append, List.map_cons,
    hbefore, hkept q (by simp), Node.IsFigure.map_snapshot_eq hns hkinds]

theorem caret_eq (h : doc.Figures f before q ns) :
    doc.caret = .ofPlace (doc.formula.endOf doc.formula.root) := by
  rw [h.retains.root, ← h.place]
  exact h.resting.caret_eq

end Figures

end Document

end FormulaEditor
