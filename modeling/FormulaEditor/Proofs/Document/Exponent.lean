import FormulaEditor.Proofs.Document.Raising
import FormulaEditor.Proofs.Document.Undoing
import FormulaEditor.Proofs.Document.Wrapping

/-!
# An exponent opened at the caret

Before a raised digit is typed, an exponent is opened. Scripts beside the caret give theirs, and the
caret goes to the end of it or to the beginning, depending on which side of them it stood on. Where
there are no scripts, new ones go in, and what they hold is nothing.
-/

namespace FormulaEditor

namespace Formula

variable {f g : Formula} {e : ElementId} {half : ListId}

/-- Opening a half makes nothing of another kind. -/
theorem Opened.kind (h : f.Opened e g half) (he : (f.kind e).isScripts) (x : ElementId) :
    g.kind x = f.kind x := by
  by_cases hx : x = e
  · subst hx
    obtain ⟨exponent, subscript, hnew⟩ := h.acceptor
    obtain ⟨_, _, _, hold⟩ := Document.isScripts_iff.mp he
    rw [Formula.kind, Formula.kind, hnew, hold]
    rfl
  · rw [Formula.kind, h.element x hx, Formula.kind]

/-- What has become of the formula when an element went in at the caret: nothing that was there is
another element, and all other lists hold what they held. -/
structure Admits (f g : Formula) (p : Place) (e : ElementId) : Prop where
  tidy : g.Tidy
  reachable : g.Reachable p.list
  hasElement : ∀ x, f.HasElement x → g.HasElement x
  element : ∀ x, f.HasElement x → g.element x = f.element x
  elements : ∀ k, f.HasList k → k ≠ p.list → g.elements k = f.elements k
  position : (g.elements p.list)[p.pos]? = some e

theorem texts_takeWhile (f : Formula) (es : List ElementId) :
    f.texts (es.takeWhile f.isText) = ((f.row es).takeWhile Option.isSome).filterMap id := by
  rw [row, List.takeWhile_map, List.filterMap_map]
  rfl

/-- The texts around a symbol are known from the texts on both sides. -/
theorem textsAround_congr {text : String} {front behind : List ElementId}
    (hfront : g.row front = f.row front) (hbehind : g.row behind = f.row behind) :
    g.textsAround text front behind = f.textsAround text front behind := by
  have hreverse : g.row front.reverse = f.row front.reverse := by
    rw [row, row, List.map_reverse, List.map_reverse]
    exact congrArg List.reverse hfront
  have htexts : ∀ (k : Formula) (es : List ElementId), k.texts es.reverse = (k.texts es).reverse :=
    fun k es => List.filterMap_reverse
  rw [textsAround, textsAround, htexts, htexts, texts_takeWhile, texts_takeWhile, texts_takeWhile,
    texts_takeWhile, hreverse, hbehind]

/-- An element that is no text does not belong to the run, and so stands before it or behind it. -/
theorem RunAt.lt_before {p : Place} {before run after : List ElementId} {i : Nat}
    (h : f.RunAt p before run after) (hget : (f.elements p.list)[i]? = some e)
    (he : f.isText e = false) (hi : i < p.pos) : i < before.length := by
  by_contra hle
  have hrun : run[i - before.length]? = some e := by
    have := h.pos_le
    rwa [h.list, List.getElem?_append_right (by omega),
      List.getElem?_append_left (by omega)] at hget
  simp [h.text e (List.mem_of_getElem? hrun)] at he

end Formula

namespace Document

open Formula

variable {doc doc' : Document} {e : ElementId} {l half : ListId} {i : Nat}
  {subscript : Option ListId} {front behind before run after : List ElementId}

/-- What stands before the run stays where it is when the run is read again. -/
theorem Reread.getElem?_before (h : doc.Reread before run after doc')
    (hrun : doc.formula.RunAt doc.caret.place before run after) (hi : i < before.length) :
    (doc'.formula.elements doc.caret.place.list)[i]? =
      (doc.formula.elements doc.caret.place.list)[i]? := by
  cases h with
  | settled => rfl
  | opened hre | passed hre =>
    rw [hre.left, hrun.list, List.getElem?_append_left hi, List.getElem?_append_left hi]

/-- Other lists hold what they held when a run is read again. -/
theorem Reread.elements (h : doc.Reread before run after doc') (hl : doc.formula.HasList l)
    (hne : l ≠ doc.caret.place.list) : doc'.formula.elements l = doc.formula.elements l := by
  cases h with
  | settled => rfl
  | opened hre | passed hre => exact hre.elements l hl hne

theorem Reread.hasElement (h : doc.Reread before run after doc') {x : ElementId}
    (hx : doc.formula.HasElement x) : doc'.formula.HasElement x := by
  cases h with
  | settled => exact hx
  | opened hre | passed hre => exact hre.hasElement x hx

theorem Reread.convertsWords (h : doc.Reread before run after doc') :
    doc'.convertsWords = doc.convertsWords := by
  cases h <;> rfl

theorem Placed.admits (h : doc.Placed doc' e) (hdoc : doc.Resting) :
    doc.formula.Admits doc'.formula doc.caret.place e := by
  have hp := hdoc.caret.place
  have hl := hp.hasList hdoc.formula
  exact {
    tidy := h.resting.formula
    reachable := by
      have hcaret := h.resting.caret.place.reachable
      rwa [h.place] at hcaret
    hasElement := fun x hx => by rw [h.formula]; simpa [HasElement] using hx
    element := fun x _ => h.element x
    elements := fun k hk hne => by rw [h.formula, elements_replaceRange hl, if_neg hne.symm]
    position := by
      rw [h.formula, elements_replaceRange hl, if_pos rfl, replaced, List.append_assoc,
        List.getElem?_append_right (by rw [List.length_take_of_le hp.le_length]),
        List.length_take_of_le hp.le_length, Nat.sub_self]
      rfl }

/-- An element that is no text stays where it went in when the words behind it are read again. -/
theorem Placed.admits_convertWords (h : doc.Placed doc' e) (hdoc : doc.Resting)
    (htext : doc.formula.isText e = false) :
    Succeeds (doc'.convertWords doc.caret.place.list) fun read =>
      read.Resting ∧ read.convertsWords = doc.convertsWords ∧
        doc.formula.Admits read.formula doc.caret.place e := by
  have hput := h.admits hdoc
  have hlist : doc'.caret.place.list = doc.caret.place.list := by rw [h.place]
  have hlists : ∀ k, doc.formula.HasList k → doc'.formula.HasList k := fun k hk => by
    rw [h.formula]
    simpa [HasList] using hk
  have hout : doc'.formula.isText e = false := by
    rw [isText, kind, h.element]
    exact htext
  obtain ⟨before, run, after, hrun⟩ := exists_runAt h.resting.caret.place.le_length
  obtain ⟨read, hconvert, hreread⟩ :=
    convertWords_reread h.resting.formula h.resting.caret.place hrun
  rw [hlist] at hconvert
  obtain ⟨hrest, hkeeps, hsame⟩ := (h.resting.convertWords hlist).of_eq_ok hconvert
  have hbefore : doc.caret.place.pos < before.length := by
    refine hrun.lt_before (by rw [hlist]; exact hput.position) hout ?_
    rw [h.place]
    exact Nat.lt_succ_self _
  have hposition := hreread.getElem?_before hrun hbefore
  rw [hlist] at hposition
  exact ⟨read, hconvert, hrest, hreread.convertsWords.trans h.converts, {
    tidy := hrest.formula
    reachable := hkeeps.reachable hput.reachable
    hasElement := fun x hx => hreread.hasElement (hput.hasElement x hx)
    element := fun x hx => (hsame x (hput.hasElement x hx)).trans (hput.element x hx)
    elements := fun k hk hne =>
      (hreread.elements (hlists k hk) (hlist ▸ hne)).trans (hput.elements k hk hne)
    position := hposition.trans hput.position }⟩

/-- An element that is no text goes in at the caret also where words are read again, and the caret
goes into it. -/
theorem Resting.place_entered (h : doc.Resting) (he : doc.formula.Ready [e])
    (htext : doc.formula.isText e = false) {a : ListId}
    (ha : (doc.formula.element e).acceptor? = some a) :
    ∃ doc', doc.place e = .ok doc' ∧ doc'.Resting ∧ doc'.caret.place = doc'.formula.endOf a ∧
      doc'.convertsWords = doc.convertsWords ∧
      doc.formula.Admits doc'.formula doc.caret.place e := by
  obtain ⟨put, hput, hplace⟩ := h.place_eq he
  have hread : Succeeds
      (if doc.convertsWords then put.convertWords doc.caret.place.list else .ok put) fun read =>
      read.Resting ∧ read.convertsWords = doc.convertsWords ∧
        doc.formula.Admits read.formula doc.caret.place e := by
    split
    · exact hput.admits_convertWords h htext
    · exact .ok ⟨hput.resting, hput.converts, hput.admits h⟩
  obtain ⟨read, hok, hrest, hconverts, hadmits⟩ := hread
  have hacceptor : (read.formula.element e).acceptor? = some a := by
    rw [hadmits.element e (he.hasElement e (List.mem_singleton_self e)), ha]
  have hin := List.mem_of_getElem? hadmits.position
  have hfilled := hadmits.tidy.filled e _ (hadmits.tidy.mem_elements.mp hin)
  have hreach := hadmits.reachable.inside hin (hfilled.mem_lists_of_acceptor? hacceptor)
  refine ⟨_, ?_, hrest.moveCaret (isPlace_endOf hreach), rfl, hconverts, hadmits⟩
  rw [hplace, hok]
  simp only [Except.bind, hacceptor]

/-! ## The exponent for a digit -/

/-- The digit of a raised glyph goes into the exponent of the scripts at an index of the caret's
list, between `front` and `behind`. New scripts go in if there are none beside the caret. -/
inductive Raises (doc : Document) :
    Nat → Option ListId → List ElementId → List ElementId → Prop
  | new (none_beside : doc.reusableScripts? none = none) : Raises doc doc.caret.place.pos none [] []
  | before {i : Nat} {e : ElementId} {exponent subscript acceptor : Option ListId}
    (beside : doc.reusableScripts? none = some (e, .right))
    (position : doc.caret.place.pos = i + 1)
    (scripts : (doc.formula.elements doc.caret.place.list)[i]? = some e)
    (element : doc.formula.element e = .scripts exponent subscript acceptor) :
    Raises doc i subscript (exponent.elim [] doc.formula.elements) []
  | behind {e : ElementId} {exponent subscript acceptor : Option ListId}
    (beside : doc.reusableScripts? none = some (e, .left))
    (scripts : (doc.formula.elements doc.caret.place.list)[doc.caret.place.pos]? = some e)
    (element : doc.formula.element e = .scripts exponent subscript acceptor) :
    Raises doc doc.caret.place.pos subscript [] (exponent.elim [] doc.formula.elements)

/-- An exponent is open at the caret, for a digit to go into it. -/
structure Opens (doc doc' : Document) (i : Nat) (subscript : Option ListId)
    (front behind : List ElementId) : Prop where
  raises : doc.Raises i subscript front behind
  exponent : ∃ e half, doc'.InExponent doc.caret.place.list i e half subscript front behind
  hasElement : ∀ x, doc.formula.HasElement x → doc'.formula.HasElement x
  kind : ∀ x ∈ front ++ behind, doc'.formula.kind x = doc.formula.kind x
  converts : doc'.convertsWords = doc.convertsWords

/-- What a digit ends up behind can be told from the formula before the exponent is opened. -/
theorem Opens.endsExponent_iff (h : doc.Opens doc' i subscript front behind) (text : String) :
    doc'.EndsExponent text front behind ↔ doc.EndsExponent text front behind := by
  have hrow : ∀ es : List ElementId, es ⊆ front ++ behind →
      doc'.formula.row es = doc.formula.row es := fun es hes =>
    List.map_congr_left fun x hx => by rw [h.kind x (hes hx)]
  have hbehind : (∀ x ∈ behind, doc'.formula.isText x = true) ↔
      ∀ x ∈ behind, doc.formula.isText x = true :=
    forall₂_congr fun x hx => by rw [isText, isText, h.kind x (List.mem_append_right _ hx)]
  rw [EndsExponent, EndsExponent, h.converts, hbehind,
    textsAround_congr (hrow front (by simp)) (hrow behind (by simp))]

/-- New scripts go in at the caret. -/
theorem Resting.insertScript_new (h : doc.Resting)
    (hselected : doc.caret.selected? doc.formula = .ok none)
    (hnone : doc.reusableScripts? none = none) :
    Succeeds (doc.insertScript true) fun doc' => doc.Opens doc' doc.caret.place.pos none [] [] := by
  obtain ⟨g, half, hopen, hamends, hplaces, hvalid, he, helement, hempty⟩ :=
    h.toValid.openScript_amends h.caret.place.reachable true
  have hscripts : g.element doc.formula.nextElement = .scripts (some half) none (some half) :=
    helement
  have hrest : Resting { doc with formula := g } := ⟨hvalid, h.selecting⟩
  obtain ⟨doc', hplace, hrest', hcaret, hconverts, hadmits⟩ := hrest.place_entered he
    (a := half) (by simp [isText, kind, hscripts]; rfl) (by simp [hscripts, Element.acceptor?])
  refine ⟨doc', ?_, ?_⟩
  · unfold Document.insertScript
    simp only [hselected, bind, Except.bind, hnone, Document.plant, Formula.plant,
      Formula.allocElement_snd, hopen]
    rw [h.insert_eq]
    exact hplace
  · have hf := h.formula
    have hhalf : half ∈ g.listsOf doc.formula.nextElement := by
      simp [listsOf, hscripts, Element.lists]
    have hne : half ≠ doc.caret.place.list := fun hc =>
      hamends.new half hhalf (hc ▸ h.caret.place.hasList hf)
    have hholds : doc'.formula.elements half = [] := by
      rw [hadmits.elements half (hvalid.formula.allocated _ half hhalf) hne, hempty]
    exact {
      raises := .new hnone
      exponent := ⟨_, half, {
        resting := hrest'
        reachable := hadmits.reachable
        scripts := hadmits.position
        element := (hadmits.element _ (he.hasElement _ (List.mem_singleton_self _))).trans hscripts
        holds := hholds
        place := by rw [hcaret, endOf, length, hholds] }⟩
      hasElement := fun x hx => hadmits.hasElement x (hplaces.hasElement x hx)
      kind := by simp
      converts := hconverts }

/-- Scripts beside the caret are opened again. -/
theorem Resting.insertScript_beside (h : doc.Resting)
    (hselected : doc.caret.selected? doc.formula = .ok none)
    {d : Direction} (hreuse : doc.reusableScripts? none = some (e, d)) :
    Succeeds (doc.insertScript true) fun doc' =>
      ∃ i subscript front behind, doc.Opens doc' i subscript front behind := by
  have hf := h.formula
  have hr := h.caret.place.reachable
  obtain ⟨i, hget, hkind, -, p, hp, hside⟩ := reusableScripts?_spec hreuse
  obtain rfl : p = doc.caret.place := hp.resolve_right (by simp [h.anchor])
  obtain ⟨exponent, subscript, acceptor, hx⟩ := isScripts_iff.mp hkind
  obtain ⟨g, half, hopen, ho, hin, -⟩ := h.toValid.openScript_beside hselected hreuse true
  have hmem := List.mem_of_getElem? hget
  obtain ⟨helement, hhalf⟩ := element_openScript (hf.hasElement hmem) hopen
  rw [hx] at helement hhalf
  have hrest : Resting { doc with formula := g } := ⟨h.toValid.opened ho, h.selecting⟩
  have hreach : g.Reachable half := (ho.keeps.reachable hr).inside hin ho.mem_half
  -- A half that is new holds nothing.
  have hholds : g.elements half = exponent.elim [] doc.formula.elements := by
    rw [ho.elements]
    obtain hold | ⟨hnone, hnew⟩ := hhalf
    · obtain rfl : exponent = some half := hold
      rfl
    · obtain rfl : exponent = none := hnone
      exact List.eq_nil_iff_forall_not_mem.mpr fun x hx => hnew (hasList_of_mem hx)
  have hopens : ∀ {doc' : Document} {front behind : List ElementId},
      doc.Raises i subscript front behind → doc'.Resting → doc'.formula = g →
      doc'.convertsWords = doc.convertsWords → g.elements half = front ++ behind →
      doc'.caret.place = ⟨half, front.length⟩ → doc.Opens doc' i subscript front behind := by
    rintro doc' front behind hraises hrest' rfl hconverts hlist hcaret
    exact {
      raises := hraises
      exponent := ⟨e, half, {
        resting := hrest'
        reachable := ho.keeps.reachable hr
        scripts := by rw [ho.elements]; exact hget
        element := helement
        holds := hlist
        place := hcaret }⟩
      hasElement := ho.hasElement
      kind := fun x _ => ho.kind hkind x
      converts := hconverts }
  unfold Document.insertScript giveSelection
  simp only [hselected, bind, Except.bind, hreuse, hopen, h.selecting, Bool.false_eq_true,
    ↓reduceIte]
  obtain ⟨rfl, hpos⟩ | ⟨rfl, hpos⟩ := hside
  · refine .ok ⟨i, subscript, _, [], hopens (.before hreuse hpos hget hx)
      (hrest.moveCaret (isPlace_endOf hreach)) rfl rfl (by simp [hholds]) ?_⟩
    rw [← hholds]
    rfl
  · subst hpos
    exact .ok ⟨_, subscript, [], _, hopens (.behind hreuse hget hx)
      (hrest.moveCaret (isPlace_startOf hreach)) rfl rfl (by simp [hholds]) rfl⟩

/-- Where nothing is selected, an exponent is open at the caret in the end. -/
theorem Resting.insertScript_opens (h : doc.Resting) :
    Succeeds (doc.insertScript true) fun doc' =>
      ∃ i subscript front behind, doc.Opens doc' i subscript front behind := by
  have hselected : doc.caret.selected? doc.formula = .ok none := by
    obtain ⟨-, hnone⟩ | ⟨hselecting, -⟩ := h.caret.selected? h.formula
    · exact hnone
    · simp [h.selecting] at hselecting
  cases hreuse : doc.reusableScripts? none with
  | none => exact (h.insertScript_new hselected hreuse).mono fun doc' ho => ⟨_, _, _, _, ho⟩
  | some reused => exact h.insertScript_beside hselected hreuse

end Document

end FormulaEditor
