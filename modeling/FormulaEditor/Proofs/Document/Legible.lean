import FormulaEditor.Document.Clipboard
import FormulaEditor.Document.Insert
import FormulaEditor.Proofs.Formula.Stored
import FormulaEditor.Proofs.Symbol.Word
import FormulaEditor.Proofs.Tex.Legible
import FormulaEditor.Proofs.Tex.Tokens

/-!
# Edits keep a document legible

Edits store symbols of one character, names of letters and digits, and parens of the six sorts, as
formula text does. Words that are read again are made of such symbols and names, and stand for
nothing else.
-/

namespace FormulaEditor

/-- The element is one that formula text can be read as, its lists aside. Scripts may still be
without a half. -/
def Element.Legible : Element → Prop
  | .atom italic => ∃ c, Text.unitalicize italic = String.singleton c ∧ Tex.isAtomChar c
  | .function name => name ≠ "" ∧ ∀ c ∈ name.toList, Unicode.isAlphanumeric c
  | .paren c => isParen c
  | _ => True

theorem Element.legible_of_lists {x : Element} (h : x.lists ≠ []) : x.Legible := by
  cases x with
  | atom | function | paren => exact absurd rfl h
  | _ => trivial

theorem Text.unitalicize_singleton (c : Char) :
    unitalicize (String.singleton c) = String.singleton (plain c) := by
  rw [unitalicize, String.toList_singleton, List.map_singleton]
  rfl

/-- What formula text can be read as is stored as a legible element. -/
theorem Node.legible_element {n : Node} (hn : n.Legible ∨ n = .scripts none none) :
    Formula.Stores.ofNode Element.Legible n := by
  intro ls hls
  by_cases hlists : n.lists = []
  · cases n with
    | atom text =>
      have hn : ∃ c, text = String.singleton c ∧ Tex.isAtomChar c := by
        simpa [Node.Legible] using hn
      obtain ⟨c, rfl, hc⟩ := hn
      refine ⟨Text.plain c, ?_, Tex.isAtomChar_plain hc⟩
      rw [Text.unitalicize_italicize, Text.unitalicize_singleton]
    | function => simpa [Node.element, Element.Legible, Node.Legible] using hn
    | paren => simpa [Node.element, Element.Legible, Node.Legible] using hn
    | binary => trivial
    | scripts exponent subscript =>
      cases exponent <;> cases subscript <;> simp_all [Node.lists, Node.element, Element.Legible]
    | _ => simp [Node.lists] at hlists
  · refine Element.legible_of_lists ?_
    rw [Node.lists_element hls]
    rintro rfl
    exact hlists (List.length_eq_zero_iff.mp hls.symm)

theorem Node.legible_elements {ns : List Node} (h : Node.EveryNode Node.Legible ns) :
    Node.EveryNode (Formula.Stores.ofNode Element.Legible) ns :=
  h.mono fun _ hns n hn => Node.legible_element (.inl (hns n hn))

/-- Whatever has a name or text stores it in letters, digits and the other symbols. -/
theorem Element.isAtomChar_of_text? {x : Element} {text : String} (hx : x.Legible)
    (h : x.kind.text? = some text) : ∀ c ∈ text.toList, Tex.isAtomChar c := by
  cases x with
  | atom italic =>
    obtain ⟨c, hitalic, hc⟩ := hx
    obtain rfl : Text.unitalicize italic = text := by simpa [Element.kind, Kind.text?] using h
    simpa [hitalic] using hc
  | function name =>
    obtain ⟨-, hname⟩ := hx
    obtain rfl : Text.unitalicize name = text := by simpa [Element.kind, Kind.text?] using h
    intro c hc
    obtain ⟨c, hmem, rfl⟩ : ∃ d ∈ name.toList, Text.plain d = c := by
      simpa [Text.unitalicize] using hc
    exact Tex.isAtomChar_plain (by simp [Tex.isAtomChar, hname c hmem])
  | _ => simp [Element.kind, Kind.text?] at h

/-! ## Words -/

theorem Tex.isAtomChar_of_greekLetter? {name : String} {c : Char}
    (h : Symbol.greekLetter? name = some c) : isAtomChar c := by
  refine isAtomChar_of_greekMacro? (?_ : Symbol.greekMacro? name = some c)
  rw [Symbol.greekLetter?] at h
  rw [Symbol.greekMacro?, List.lookup_append, h, Option.some_or]

/-- A special word stands for a legible node, and so does a symbol. -/
theorem Node.legible_ofWord {word : String}
    (h : word ∈ Symbol.words ∨ ∃ c, word = String.singleton c ∧ Tex.isAtomChar c) :
    Node.EveryNode Node.Legible [Node.ofWord word] := by
  have hleaf : ∀ {n : Node}, n.Legible → n.lists = [] → Node.EveryNode Node.Legible [n] :=
    fun hn hl => Tex.legible_single hn (by simp [hl])
  have hbig : ∀ op, Node.EveryNode Node.Legible [Node.emptyBig op] := fun op => by
    simp [Node.everyNode_cons, Node.everyNode_nil, Node.emptyBig, Node.lists, Node.Legible]
  unfold Node.ofWord
  split
  · exact Tex.legible_single trivial (by simp [Node.lists, Node.everyNode_nil])
  · exact Tex.legible_single trivial (by simp [Node.lists, Node.everyNode_nil])
  · exact hbig _
  · exact hbig _
  · exact Tex.legible_single trivial (by simp [Node.lists, Node.everyNode_nil])
  · exact Tex.legible_single trivial (by simp [Node.lists, Node.everyNode_nil])
  · split
    · exact hleaf (Tex.legible_of_isFunction ‹_›) rfl
    · split
      -- No special word is a single character, so this is a symbol.
      · rename_i c hc
        have hword : word = String.singleton c := String.toList_injective (by simpa using hc)
        cases BinaryOp.ofKey? c with
        | some op => exact hleaf trivial rfl
        | none =>
          refine hleaf ⟨c, hword, ?_⟩ rfl
          obtain h | ⟨c', hc', hatom⟩ := h
          · exact absurd (by rw [hc]; rfl) (Symbol.length_ne_one_of_mem h)
          · obtain rfl : c' = c := by simpa using congrArg String.toList (hc'.symm.trans hword)
            exact hatom
      -- A longer word that is none of the above names a Greek letter.
      · rename_i hnot
        cases hg : Symbol.greekLetter? word with
        | some g => exact hleaf (Tex.legible_ofChar (Tex.isAtomChar_of_greekLetter? hg)) rfl
        | none =>
          obtain h | ⟨c, rfl, -⟩ := h
          · have := Symbol.greekLetter?_or_function_or_construct h
            simp_all [Symbol.constructs]
          · exact absurd (String.toList_singleton c) (hnot c)

/-- A slot that was never allocated has no text. -/
theorem Formula.Stores.isAtomChar_of_text? {f : Formula} {e : ElementId} {text : String}
    (h : f.Stores Element.Legible []) (ht : (f.kind e).text? = some text) :
    ∀ c ∈ text.toList, Tex.isAtomChar c := by
  by_cases he : f.HasElement e
  · exact Element.isAtomChar_of_text? (h.element e he List.not_mem_nil) ht
  · have hslot : f.element e = .atom "" := by
      rw [Formula.element, Formula.elementSlot_of_not_hasElement he]
    obtain rfl : "" = text := by
      simpa [Formula.kind, hslot, Element.kind, Kind.text?, Text.unitalicize] using ht
    simp

/-- Reading a run of text again leads to legible nodes. -/
theorem Formula.Stores.legible_words {f : Formula} {es : List ElementId} {first : Nat}
    (h : f.Stores Element.Legible []) :
    Node.EveryNode (Formula.Stores.ofNode Element.Legible)
      (((Symbol.splitWords (String.join (es.filterMap fun e => (f.kind e).text?))).drop first).map
        Node.ofWord) := by
  refine Node.everyNode_iff_forall.mpr fun n hn => ?_
  obtain ⟨word, hword, rfl⟩ := List.mem_map.mp hn
  refine Node.legible_elements (Node.legible_ofWord ?_)
  refine (Symbol.mem_splitWords (List.mem_of_mem_drop hword)).imp_right ?_
  rintro ⟨c, hc, rfl⟩
  rw [String.toList_join, List.mem_flatMap] at hc
  obtain ⟨text, htext, hc⟩ := hc
  obtain ⟨e, -, htext⟩ := List.mem_filterMap.mp htext
  exact ⟨c, rfl, h.isAtomChar_of_text? htext c hc⟩

namespace Formula

variable {P : Element → Prop} {f : Formula} {e : ElementId} {l : ListId}
  {pending es : List ElementId}

theorem Stores.splice {start stop : Nat} (h : f.Stores P pending) :
    Yields (f.splice l start stop es) fun r => r.1.Stores P pending := by
  unfold Formula.splice
  split
  · exact .ok h.replaceRange
  · exact .error _

theorem Stores.collect {caller : ListId} {lists : List ListId} (h : f.Stores P pending) :
    (f.collect caller lists).1.Stores P pending := by
  unfold Formula.collect
  generalize ([] : List ElementId) = contents, 0 = offset
  induction lists generalizing f contents offset with
  | nil => exact h
  | cons l lists ih => exact ih h.drain.disown _ _

/-- Scripts are legible with a half and without. -/
theorem Stores.openScript {superscript : Bool} (h : f.Stores Element.Legible pending) :
    Yields (f.openScript e superscript) fun r => r.1.Stores Element.Legible pending := by
  unfold Formula.openScript
  split
  · refine .ok (Stores.setElement ?_ (by cases superscript <;> trivial))
    split
    · exact h
    · exact h.adoptList
  · exact .error _

end Formula

namespace Document

/-- Every element of the store is legible, in a list or not. -/
structure Legible (doc : Document) : Prop where
  stores : doc.formula.Stores Element.Legible []

namespace Legible

variable {doc : Document} {e : ElementId} {l : ListId} {d : Direction} {es : List ElementId}
  {n : Node}

theorem empty {b : Bool} : (Document.empty b).Legible :=
  ⟨.empty⟩

/-- Where the caret stands does not matter. -/
theorem moveCaret {p : Place} (h : doc.Legible) : (doc.moveCaret p).Legible :=
  ⟨h.stores⟩

theorem cancelSelection (h : doc.Legible) : doc.cancelSelection.Legible :=
  ⟨h.stores⟩

theorem move {select : Bool} (h : doc.Legible) :
    Yields (doc.move d select) fun r => r.1.Legible :=
  Yields.bind_any fun _ => .ok ⟨h.stores⟩

theorem splice {start stop : Nat} (h : doc.Legible) :
    Yields (doc.splice l start stop es) fun r => r.1.Legible :=
  h.stores.splice.bind fun _ hr => .ok ⟨hr⟩

/-! ### Deleting -/

theorem insertElements {pos : Nat} {behind : Bool} (h : doc.Legible) :
    Yields (doc.insertElements l pos es behind) Legible :=
  h.splice.bind fun _ hr => .ok hr.moveCaret

theorem dropHalf {outer half exponent subscript : ListId} {acceptor : Option ListId}
    (h : doc.Legible) : Yields (doc.dropHalf e outer half exponent subscript acceptor) Legible := by
  have hrest : ((doc.formula.drain half).1.disown half).Stores Element.Legible [] :=
    h.stores.drain.disown
  unfold Document.dropHalf
  dsimp only
  split
  · exact insertElements ⟨hrest.setElement (by split <;> trivial)⟩
  · exact insertElements ⟨hrest.setElement (by split <;> trivial)⟩

theorem dissolve {caller : ListId} (h : doc.Legible) : Yields (doc.dissolve e caller) Legible := by
  unfold Document.dissolve
  split
  · exact .ok h
  · split
    · exact h.dropHalf
    · have hrest : Legible { doc with
          formula := (doc.formula.collect caller (doc.formula.element e).lists).1 } :=
        ⟨h.stores.collect⟩
      exact hrest.splice.bind fun _ hr => .ok hr.moveCaret

theorem deleteFrom {p : Place} (h : doc.Legible) : Yields (doc.deleteFrom p d) Legible := by
  unfold Document.deleteFrom
  dsimp only
  split
  · exact h.moveCaret.splice.bind fun _ hr => .ok hr.moveCaret
  · split
    · exact h.moveCaret.dissolve
    · exact .ok h.moveCaret

theorem deleteIn (h : doc.Legible) : Yields (doc.deleteIn l d) Legible := by
  unfold Document.deleteIn
  split
  · exact .error _
  · exact h.deleteFrom

theorem delete (h : doc.Legible) : Yields (doc.delete d) fun r => r.1.Legible := by
  unfold Document.delete
  refine Yields.bind_any fun selected => ?_
  cases selected with
  | some s => exact h.splice.bind fun _ hr => .ok hr.moveCaret.cancelSelection
  | none =>
    have hrest : (if doc.caret.selecting then doc.cancelSelection else doc).Legible := by
      split
      · exact h.cancelSelection
      · exact h
    exact hrest.deleteIn.bind fun _ hr => .ok hr

theorem cut (h : doc.Legible) : Yields doc.cut fun r => r.1.Legible := by
  unfold Document.cut
  refine Yields.bind_any fun text => ?_
  split
  · exact h.delete.bind fun _ hr => .ok hr
  · exact .ok h

/-! ### Reading words again -/

/-- What gives way is text, and what it spells is legible. -/
theorem convertWords (h : doc.Legible) : Yields (doc.convertWords l) Legible := by
  unfold Document.convertWords
  refine Yields.bind_any ?_
  rintro ⟨left, right⟩
  dsimp only
  split
  · exact .ok h
  · rename_i first hfirst
    refine Yields.bind (splice ⟨h.stores.plantAll h.stores.legible_words⟩) fun r hr => ?_
    split
    · exact .ok hr.moveCaret
    · exact hr.moveCaret.move.bind fun _ hr => .ok hr

/-! ### Inserting -/

theorem plant (h : doc.Legible) (hn : Node.EveryNode (Formula.Stores.ofNode Element.Legible) [n]) :
    (doc.plant n).1.Legible :=
  ⟨h.stores.plant hn⟩

theorem acceptSelection (h : doc.Legible) : Yields (doc.acceptSelection e es d) Legible := by
  unfold Document.acceptSelection
  dsimp only
  split
  · exact .error _
  · split
    · exact .ok h
    · exact h.splice.bind fun _ hr => .ok hr

theorem giveSelection (h : doc.Legible) : Yields (doc.giveSelection e d) fun r => r.1.Legible := by
  unfold Document.giveSelection
  split
  · exact h.delete.bind fun _ hr => hr.acceptSelection.bind fun _ hr => .ok hr
  · exact .ok h

/-- The caret goes into a list if there is one to go into, and stays otherwise. -/
theorem moveInto (h : doc.Legible) (l? : Option ListId) (place : ListId → Place) :
    Yields (match l? with
      | some l => (.ok (doc.moveCaret (place l)) : Except Misuse Document)
      | none => .ok doc) Legible := by
  cases l? with
  | none => exact .ok h
  | some l => exact .ok h.moveCaret

theorem place (h : doc.Legible) : Yields (doc.place e) Legible := by
  unfold Document.place
  split
  · exact .error _
  · refine h.splice.bind fun r hr => ?_
    dsimp only
    split
    · exact hr.moveCaret.convertWords.bind fun doc' hd => hd.moveInto _ doc'.formula.endOf
    · exact (Yields.ok hr.moveCaret).bind fun doc' hd => hd.moveInto _ doc'.formula.endOf

theorem insert (h : doc.Legible) : Yields (doc.insert e d) Legible :=
  h.giveSelection.bind fun _ hr => hr.place

theorem insertNode (h : doc.Legible) (hn : Node.EveryNode Node.Legible [n]) :
    Yields (doc.insertNode n d) Legible :=
  (h.plant (Node.legible_elements hn)).insert

theorem insertScript {superscript : Bool} (h : doc.Legible) :
    Yields (doc.insertScript superscript) Legible := by
  unfold Document.insertScript
  refine Yields.bind_any fun selected => ?_
  split
  · refine h.stores.openScript.bind fun r hr => ?_
    have hopen : Legible { doc with formula := r.1 } := ⟨hr⟩
    refine hopen.giveSelection.bind fun r hr => ?_
    dsimp only
    split
    · exact .ok hr.moveCaret
    · exact .ok hr.moveCaret
  · have hplant := h.plant (n := .scripts none none) (Node.everyNode_singleton.mpr
      ⟨Node.legible_element (.inr rfl), by simp [Node.lists]⟩)
    refine hplant.stores.openScript.bind fun r hr => ?_
    have hopen : Legible { (doc.plant (.scripts none none)).1 with formula := r.1 } := ⟨hr⟩
    exact hopen.insert

theorem plant_emptyNode (h : doc.Legible) (kind : GreedyKind) :
    (doc.plant kind.emptyNode).1.Legible := by
  refine h.plant (Node.legible_elements ?_)
  cases kind <;> exact Tex.legible_single trivial
    (by simp [GreedyKind.emptyNode, Node.lists, Node.everyNode_nil])

theorem insertAround {kind : GreedyKind} (h : doc.Legible) :
    Yields (doc.insertAround kind) Legible := by
  unfold Document.insertAround
  dsimp only
  split
  · exact .error _
  · refine h.splice.bind fun right hr => ?_
    refine hr.splice.bind fun left hl => ?_
    have hplant := fun place => (hl.moveCaret (p := place)).plant_emptyNode kind
    split
    · refine (hplant _).splice.bind fun r hr => hr.splice.bind fun r hr => ?_
      refine (Yields.ok hr).bind fun _ hd => ?_
      exact hd.place.bind fun _ hd => hd.moveInto _ Formula.startOf
    · refine (hplant _).splice.bind fun r hr => ?_
      refine hr.stores.openScript.bind fun r' hf => ?_
      have hopen : Legible { r.1 with formula := r'.1 } := ⟨hf⟩
      refine (Yields.ok hopen).bind fun _ hd => ?_
      exact hd.place.bind fun _ hd => hd.moveInto _ Formula.startOf
    · refine (Yields.ok (hplant _)).bind fun _ hd => ?_
      exact hd.place.bind fun _ hd => hd.moveInto _ Formula.startOf

theorem insertGreedy {kind : GreedyKind} (h : doc.Legible) :
    Yields (doc.insertGreedy kind) Legible := by
  unfold Document.insertGreedy
  split
  · have hplant := h.plant_emptyNode kind
    cases kind with
    | frac => exact (Yields.ok hplant.stores).bind fun _ hf => insert ⟨hf⟩
    | superscript => exact (hplant.stores.openScript.map).bind fun _ hf => insert ⟨hf⟩
  · exact h.insertAround

end Legible

end Document

end FormulaEditor
