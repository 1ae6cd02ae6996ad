import FormulaEditor.Proofs.Document.Around
import FormulaEditor.Proofs.Document.Figures
import FormulaEditor.Proofs.Session.Keyboard
import FormulaEditor.Proofs.Session.Pasting
import FormulaEditor.Proofs.Tex.Symbols

/-!
# Typing and reading

The keyboard and formula text have a table of characters each. Where both take a character for a
single symbol they take it for the same one, but for the apostrophe, which the keyboard turns into a
prime. So a text of such characters can be typed as well as read.
-/

namespace FormulaEditor

/-- A leaf takes no caret in. -/
theorem Node.acceptor?_element {n : Node} (hn : n.lists = []) (hfilled : n.Filled)
    (ls : List ListId) : (n.element ls).acceptor? = none := by
  rcases n with _ | _ | _ | _ | _ | ⟨_ | _, _⟩ | ⟨_ | _, _ | _⟩ | _ | _ <;>
    simp_all [Node.lists, Node.Filled, Node.element, Element.acceptor?]

theorem Formula.length_nodes {f : Formula} (hf : f.HasList f.root) :
    f.nodes.length = f.length f.root := by
  obtain ⟨d, hd⟩ : ∃ d, f.listSlots.size = d + 1 :=
    ⟨f.listSlots.size - 1, by simp only [HasList] at hf; omega⟩
  rw [nodes, snapshotList, hd, snapshotWithin_succ, List.length_map, length]

namespace Document

variable {doc : Document} {n : Node} {ns : List Node}

/-- While words are not read, inserting a leaf at rest is pasting it. -/
theorem Resting.insertNode_eq_pasteNodes (h : doc.Resting) (hw : doc.convertsWords = false)
    (hn : n.lists = []) (hfilled : n.Filled) (d : Direction) :
    doc.insertNode n d = doc.pasteNodes [n] := by
  have hnode : Node.EveryNode Node.Filled [n] := Node.everyNode_filled hfilled (by simp [hn])
  obtain ⟨hg, hgrows, hready⟩ := h.formula.plant hnode
  obtain ⟨ls, -, helement⟩ := Formula.element_plant h.formula.toSound n
  have hplace := (h.toValid.grows hg hgrows).caret.place
  rw [h.insertNode_eq, h.pasteNodes_eq hnode]
  have hacceptor : ((doc.formula.plant n).1.element (doc.formula.plant n).2).acceptor? = none := by
    rw [helement]
    exact Node.acceptor?_element hn hfilled ls
  have hplaced : Document.place { doc with formula := (doc.formula.plant n).1 }
      (doc.formula.plant n).2 = _ :=
    place_of_convertsWords hw (hready.parent _ (List.mem_singleton_self _)) hplace.le_length rfl
  simp only [hacceptor] at hplaced
  refine hplaced.trans ?_
  rw [Document.moveCaret, h.caret_eq]
  rfl

/-- The document holds the nodes, and the caret rests behind them. -/
structure Written (doc : Document) (ns : List Node) : Prop where
  resting : doc.Resting
  convertsWords : doc.convertsWords = false
  nodes : doc.formula.nodes = ns
  place : doc.caret.place = doc.formula.endOf doc.formula.root

/-- A leaf is written behind what there is. -/
theorem Written.insertNode (h : doc.Written ns) (hn : n.lists = []) (hfilled : n.Filled) :
    ∃ doc', doc.insertNode n .left = .ok doc' ∧ doc'.Written (ns ++ [n.upright]) := by
  obtain ⟨hrest, hw, rfl, hplace⟩ := h
  have hf := hrest.formula
  have hnode : Node.EveryNode Node.Filled [n] := Node.everyNode_filled hfilled (by simp [hn])
  have htarget : doc.caret.target doc.formula =
      .ok ⟨doc.formula.root, doc.formula.length doc.formula.root,
        doc.formula.length doc.formula.root⟩ := by
    rw [Caret.target, Caret.selected?, hrest.selecting, hplace]
    rfl
  obtain ⟨g, es, hpaste, hreplaces, hlength, hg, hspliced⟩ :=
    hrest.pasteNodes_replaces hnode htarget
  have hroot : doc.formula.listAt? [] = some doc.formula.root := rfl
  have hnodes := (hreplaces.agreesBut hf.toLinked).nodes_eq hf.toSound hg.toSound hspliced hroot
  have hwritten : g.nodes = doc.formula.nodes ++ [n.upright] := by
    rw [hnodes, Node.changeAt, ← Formula.length_nodes hf.root_hasList, Node.spliced,
      List.take_length, List.drop_length, List.append_nil]
    rfl
  rw [hrest.insertNode_eq_pasteNodes hw hn hfilled]
  refine ⟨_, hpaste, (hrest.toValid.pasteNodes hnode).of_eq_ok hpaste, hw, hwritten, ?_⟩
  have hend := congrArg List.length hwritten
  rw [List.length_append, Formula.length_nodes hg.root_hasList,
    Formula.length_nodes hf.root_hasList, hreplaces.root] at hend
  rw [Formula.endOf, hreplaces.root, hend]
  rfl

end Document

namespace Session

open Document Tex

variable {s : Session} {c : Char} {cs : List Char} {n : Node} {ns : List Node} {text : String}

/-- Typed into an empty session, the character is a single element without lists. -/
def TypesLeaf (c : Char) : Prop :=
  ∃ s result n, (new .literal).typeChar c = .ok (s, result) ∧ s.document.formula.nodes = [n] ∧
    n.lists = []

/-- A prime for an apostrophe; any other character is its own. -/
def primed (c : Char) : Char :=
  if c = '\'' then '′' else c

/-- What is typed into an empty document: whether it is a leaf, element by element. -/
def Typed.leaves (typed : Typed) : Except Misuse (List Bool) :=
  (typed.apply false (.empty false)).map fun doc => doc.formula.nodes.map fun n => n.lists.isEmpty

/-- The keyboard takes such a character for a leaf. -/
theorem TypesLeaf.ofChar? (h : TypesLeaf c) :
    ∃ n, Typed.ofChar? c = some (.node n) ∧ n.lists = [] ∧ n.Filled := by
  obtain ⟨s, result, n, htype, hnodes, hlists⟩ := h
  have hleaf : ∀ typed, Typed.ofChar? c = some typed → typed.leaves = .ok [true] := by
    intro typed htyped
    unfold Session.typeChar at htype
    rw [htyped] at htype
    obtain ⟨s', hedit, hs⟩ := bind_eq_ok.mp htype
    obtain ⟨doc, happly, hdoc⟩ := bind_eq_ok.mp hedit
    cases hdoc
    cases hs
    have happly : typed.apply false (.empty false) = .ok doc := happly
    have hnodes : doc.formula.nodes = [n] := hnodes
    simp only [Typed.leaves, happly, Except.map, hnodes, List.map_cons, List.map_nil, hlists,
      List.isEmpty_nil]
  cases htyped : Typed.ofChar? c with
  | none =>
    unfold Session.typeChar at htype
    rw [htyped] at htype
    cases htype
    cases hnodes
  | some typed =>
    have hleaf := hleaf typed htyped
    cases typed with
    | raised digit =>
      have hdigits : ∀ digit < 10, (Typed.raised digit).leaves = .ok [false] := by decide +kernel
      rw [hdigits digit (Typed.lt_of_ofChar? htyped)] at hleaf
      cases hleaf
    | fraction | superscript | subscript => cases hleaf
    | node m =>
      refine ⟨m, rfl, ?_⟩
      cases TypedBy.of_ofChar? htyped with
      | bar => cases hleaf
      | symbol | operator | prime | paren => exact ⟨rfl, trivial⟩

theorem stands_prime : Stands '′' (.ofChar '′') :=
  .atom (by decide +kernel) (by decide)

/-- What the keyboard takes a character for, text means by the character, or by a prime if it is an
apostrophe. -/
theorem stands_of_ofChar? {m : Node} (htype : Typed.ofChar? c = some (.node m)) (hm : m.lists = [])
    (h : Stands c n) : Stands (primed c) m := by
  cases TypedBy.of_ofChar? htype with
  | symbol hc =>
    obtain halpha | rfl | rfl := hc
    · have hatom := isAtomChar_of_isAlphanumeric halpha
      have hne : c ≠ '\'' := by
        rintro rfl
        exact absurd halpha (by decide)
      rw [primed, if_neg hne]
      cases h with
      | paren hc =>
        simp only [List.mem_cons, List.not_mem_nil, or_false] at hc
        obtain rfl | rfl | rfl | rfl := hc <;> exact absurd halpha (by decide)
      | binary hc => simp [ofChar?_of_isAtomChar hatom] at hc
      | atom hc hg => exact .atom hc hg
    · exact Stands.atom (c := '!') (by decide) (by decide)
    · exact Stands.atom (c := '.') (by decide) (by decide)
  | @operator op hop =>
    have hsign : BinaryOp.ofChar? c = some op := by
      unfold BinaryOp.ofKey? at hop
      split at hop
      · exact hop
      · cases hop
    have hne : c ≠ '\'' := by
      rintro rfl
      cases hsign
    rw [primed, if_neg hne]
    exact .binary hsign
  | prime hc =>
    subst hc
    exact stands_prime
  | paren hc =>
    have hne : c ≠ '\'' := by
      rintro rfl
      cases hc
    rw [primed, if_neg hne]
    cases h with
    | paren hc => exact .paren hc
    | binary hop =>
      obtain rfl | rfl | rfl | rfl | rfl | rfl := isParen_iff.mp hc <;> cases hop
    | atom hatom =>
      obtain rfl | rfl | rfl | rfl | rfl | rfl := isParen_iff.mp hc <;> exact absurd hatom (by decide)
  | bar => cases hm

/-- Typing characters that are leaves for the keyboard writes these leaves. -/
theorem typeChars_written (h : s.document.Written ns)
    (hcs : List.Forall₂ (fun c n => Typed.ofChar? c = some (.node n) ∧ n.lists = [] ∧ n.Filled)
      cs ms) :
    ∃ s' results, s.typeChars cs = .ok (s', results) ∧
      s'.document.Written (ns ++ Node.uprightAll ms) := by
  induction hcs generalizing s ns with
  | nil => exact ⟨s, [], rfl, by simpa [Node.uprightAll_eq_map] using h⟩
  | @cons c n cs ms hc _ ih =>
    obtain ⟨htype, hlists, hfilled⟩ := hc
    obtain ⟨doc, hinsert, hwritten⟩ := h.insertNode hlists hfilled
    have htyped : s.typeChar c = .ok ({ s with document := doc }, .edited) := by
      have happly : Typed.apply s.options.greedyFraction s.document (.node n) = .ok doc := hinsert
      unfold Session.typeChar Session.edit
      rw [htype]
      simp only [happly, bind, Except.bind]
    obtain ⟨s', results, hrun, hwritten⟩ := ih (s := { s with document := doc }) hwritten
    refine ⟨s', .edited :: results, ?_, ?_⟩
    · rw [typeChars, htyped]
      simp only [hrun, bind, Except.bind]
    · rw [Node.uprightAll_eq_map] at hwritten ⊢
      simpa using hwritten

/-- What is typed for a character reads as what text means by it, unless it is an apostrophe. -/
theorem upright_eq_iff {m : Node} (h : Stands c n) (hm : Stands (primed c) m) :
    n.upright = m.upright ↔ c ≠ '\'' := by
  unfold primed at hm
  split at hm
  · subst c
    have hquote : Stands '\'' (.ofChar '\'') := .atom (by decide +kernel) (by decide)
    rw [h.unique hquote, hm.unique stands_prime]
    refine iff_of_false (fun heq => ?_) fun hne => hne rfl
    exact absurd (Node.atom.inj heq) (by decide)
  · next hne => exact iff_of_true (by rw [h.unique hm]) hne

/-- A text of characters that are leaves for the keyboard as well as for the reader is typed into an
empty session as it is read with primes for its apostrophes, and the caret rests behind it. So it is
typed as it is read itself just if it has no apostrophe. -/
theorem typeChars_reads (text : String)
    (h : ∀ c ∈ text.toList, TypesLeaf c ∧ ReadsLeaf c) :
    ∃ s results ms ns, (new .literal).typeChars text.toList = .ok (s, results) ∧
      s.document.caret = .ofPlace (s.document.formula.endOf s.document.formula.root) ∧
      read (text.map primed) = .ok ms ∧ s.document.formula.nodes = (Formula.ofNodes ms).nodes ∧
      read text = .ok ns ∧
      (s.document.formula.nodes = (Formula.ofNodes ns).nodes ↔ '\'' ∉ text.toList) := by
  have hleaf : ∀ c ∈ text.toList, ∃ n m, Stands c n ∧ Stands (primed c) m ∧
      Typed.ofChar? c = some (.node m) ∧ m.lists = [] ∧ m.Filled := by
    intro c hc
    obtain ⟨htypes, hreads⟩ := h c hc
    obtain ⟨n, hn⟩ := hreads.stands
    obtain ⟨m, hm, hlists, hfilled⟩ := htypes.ofChar?
    exact ⟨n, m, hn, stands_of_ofChar? hm hlists hn, hm, hlists, hfilled⟩
  choose! meant typed hmeant hprimed htyped using hleaf
  have hempty : (new .literal).document.Written [] :=
    ⟨⟨valid_empty, rfl⟩, rfl, rfl, rfl⟩
  obtain ⟨s, results, hrun, hwritten⟩ := typeChars_written hempty
    (List.forall₂_map_right_iff.mpr (List.forall₂_same.mpr htyped))
  have hread : read text = .ok (text.toList.map meant) := by
    have := read_of_stands (List.forall₂_map_right_iff.mpr (List.forall₂_same.mpr hmeant))
    rwa [String.ofList_toList] at this
  have hreadPrimed : read (text.map primed) = .ok (text.toList.map typed) := by
    have := read_of_stands (List.forall₂_map_left_iff.mpr
      (List.forall₂_map_right_iff.mpr (List.forall₂_same.mpr hprimed)))
    rwa [← String.toList_map, String.ofList_toList] at this
  have hnodes : s.document.formula.nodes = Node.uprightAll (text.toList.map typed) := by
    simpa using hwritten.nodes
  refine ⟨s, results, _, _, hrun, ?_, hreadPrimed, ?_, hread, ?_⟩
  · rw [hwritten.resting.caret_eq, hwritten.place]
  · rw [hnodes, Formula.nodes_ofNodes]
  · rw [hnodes, Formula.nodes_ofNodes, Node.uprightAll_eq_map, Node.uprightAll_eq_map,
      List.map_map, List.map_map, List.map_inj_left]
    constructor
    · intro hall hmem
      exact (upright_eq_iff (hmeant _ hmem) (hprimed _ hmem)).mp (hall _ hmem).symm rfl
    · intro hnot c hc
      exact ((upright_eq_iff (hmeant c hc) (hprimed c hc)).mpr (ne_of_mem_of_not_mem hc hnot)).symm

/-- A sum in parens is typed as it is read, and the apostrophe behind it as the prime. -/
theorem typeChars_reads_derivative : ∃ s results ms ns,
    (new .literal).typeChars "(a+b)'".toList = .ok (s, results) ∧
      s.document.caret = .ofPlace (s.document.formula.endOf s.document.formula.root) ∧
      read "(a+b)′" = .ok ms ∧ s.document.formula.nodes = (Formula.ofNodes ms).nodes ∧
      read "(a+b)'" = .ok ns ∧ s.document.formula.nodes ≠ (Formula.ofNodes ns).nodes := by
  have hleaf : ∀ c ∈ "(a+b)'".toList, TypesLeaf c ∧ ReadsLeaf c := by
    intro c hc
    simp only [String.reduceToList, List.mem_cons, List.not_mem_nil, or_false] at hc
    obtain rfl | rfl | rfl | rfl | rfl | rfl := hc <;>
      exact ⟨⟨_, _, _, rfl, rfl, rfl⟩, _, rfl, rfl⟩
  obtain ⟨s, results, ms, ns, hrun, hcaret, hprimed, hms, hread, hns⟩ :=
    typeChars_reads "(a+b)'" hleaf
  have hprime : "(a+b)'".map primed = "(a+b)′" :=
    String.toList_inj.mp (by rw [String.toList_map]; decide)
  rw [hprime] at hprimed
  exact ⟨s, results, ms, ns, hrun, hcaret, hprimed, hms, hread,
    fun heq => hns.mp heq (by decide)⟩

/-- A typed apostrophe is the prime, but one in a text is an apostrophe. -/
theorem typed_apostrophe_differs : ∃ s results ns, TypesLeaf '\'' ∧ ReadsLeaf '\'' ∧
    (new .literal).typeChars "'".toList = .ok (s, results) ∧ read "'" = .ok ns ∧
    s.document.formula.nodes ≠ (Formula.ofNodes ns).nodes := by
  refine ⟨_, _, _, ⟨_, _, _, rfl, rfl, rfl⟩, ⟨_, rfl, rfl⟩, rfl, rfl, fun heq => ?_⟩
  exact absurd (Node.atom.inj (List.cons.inj heq).1) (by decide)

end Session

end FormulaEditor
