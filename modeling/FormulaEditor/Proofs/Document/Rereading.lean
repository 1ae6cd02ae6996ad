import FormulaEditor.Proofs.Caret.Order
import FormulaEditor.Proofs.Document.Around
import FormulaEditor.Proofs.Document.Legible
import FormulaEditor.Proofs.Document.Words
import FormulaEditor.Proofs.Formula.Locality
import FormulaEditor.Proofs.Session.Edits
import FormulaEditor.Proofs.Symbol.Splitting

/-!
# Reading a run of text again

The run of text at the caret is cut into words, and these are compared with the texts of the
elements one by one. What comes before the first difference stays. In the place of the rest of the
run there is one new element for each word that is left, and together these words are the text that
was there.
-/

namespace FormulaEditor

/-- A word of plain characters stands for nothing in italics. -/
theorem Node.upright_ofWord {word : String} (h : Text.unitalicize word = word) :
    (Node.ofWord word).upright = Node.ofWord word := by
  have hgreek : ∀ entry ∈ Symbol.greekLetters, Text.plain entry.2 = entry.2 := by decide +kernel
  unfold Node.ofWord
  split <;> try rfl
  split
  · rfl
  · split
    · cases BinaryOp.ofKey? _ with
      | none => exact congrArg Node.atom h
      | some op => rfl
    · cases hg : Symbol.greekLetter? word with
      | none => rfl
      | some g =>
        have hplain := hgreek _ (Tex.mem_of_lookup hg)
        exact congrArg Node.atom ((Text.unitalicize_singleton g).trans (by rw [hplain]))

/-! ## Words and texts side by side -/

section Comparing

variable {names texts : List String} {k : Nat}

theorem firstDifference?_cons (name text : String) (names texts : List String) :
    firstDifference? (name :: names) (text :: texts) =
      if name = text then (firstDifference? names texts).map (· + 1) else some 0 := by
  by_cases h : name = text <;> simp [firstDifference?, List.findIdx?_cons, h]

theorem firstDifference?_eq_some_iff : firstDifference? names texts = some k ↔
    k < names.length ∧ k < texts.length ∧ names.take k = texts.take k ∧ names[k]? ≠ texts[k]? := by
  induction names generalizing texts k with
  | nil => simp [firstDifference?]
  | cons name names ih =>
    cases texts with
    | nil => simp [firstDifference?]
    | cons text texts =>
      rw [firstDifference?_cons]
      cases k with
      | zero => by_cases h : name = text <;> simp [h]
      | succ k => by_cases h : name = text <;> simp [h, ih]

/-- Where no difference comes up, the words are the first texts, and no text is left behind them. -/
theorem firstDifference?_eq_none_iff (hjoin : String.join names = String.join texts)
    (hnames : ∀ name ∈ names, name ≠ "") :
    firstDifference? names texts = none ↔ names <+: texts := by
  induction names generalizing texts with
  | nil => simp [firstDifference?]
  | cons name names ih =>
    obtain ⟨hname, hnames⟩ := List.forall_mem_cons.mp hnames
    cases texts with
    | nil =>
      have := congrArg String.toList hjoin
      simp_all
    | cons text texts =>
      rw [firstDifference?_cons]
      by_cases h : name = text
      · subst h
        have hjoin : String.join names = String.join texts := by
          simpa [← String.toList_inj] using congrArg String.toList hjoin
        simp [ih hjoin hnames]
      · simp [h]

end Comparing

namespace Formula

variable {f : Formula} {p : Place} {es before run after : List ElementId}

/-- The texts of elements, as far as they have some. -/
def texts (f : Formula) (es : List ElementId) : List String :=
  es.filterMap fun e => (f.kind e).text?

/-- The words that the texts of elements make up. -/
def words (f : Formula) (es : List ElementId) : List String :=
  Symbol.splitWords (String.join (f.texts es))

/-- The run of text around a place: as many elements to both sides as have texts. -/
structure RunAt (f : Formula) (p : Place) (before run after : List ElementId) : Prop where
  list : f.elements p.list = before ++ (run ++ after)
  le_pos : before.length ≤ p.pos
  pos_le : p.pos ≤ before.length + run.length
  text : ∀ e ∈ run, f.isText e = true
  first : ∀ e ∈ before.getLast?, f.isText e = false
  last : ∀ e ∈ after.head?, f.isText e = false

theorem exists_text_append (f : Formula) (es : List ElementId) : ∃ run rest, es = run ++ rest ∧
    (∀ e ∈ run, f.isText e = true) ∧ ∀ e ∈ rest.head?, f.isText e = false := by
  refine ⟨es.takeWhile f.isText, es.dropWhile f.isText, List.takeWhile_append_dropWhile.symm,
    fun e he => List.mem_takeWhile_imp he, fun e he => ?_⟩
  simpa [Option.mem_def.mp he] using List.head?_dropWhile_not f.isText es

theorem takeWhile_isText (hrun : ∀ e ∈ run, f.isText e = true)
    (hrest : ∀ e ∈ es.head?, f.isText e = false) : (run ++ es).takeWhile f.isText = run := by
  rw [List.takeWhile_append_of_pos hrun]
  cases es with
  | nil => simp
  | cons e es => simp [hrest e rfl]

/-- Nothing follows the text at the beginning of a list just if all of the list is text. -/
theorem eq_nil_iff_isText (hrun : ∀ e ∈ run, f.isText e = true)
    (hrest : ∀ e ∈ es.head?, f.isText e = false) : es = [] ↔ ∀ e ∈ run ++ es, f.isText e = true := by
  constructor
  · rintro rfl
    rwa [List.append_nil]
  · intro hall
    cases es with
    | nil => rfl
    | cons e es => exact absurd (hall e (by simp)) (by simp [hrest e rfl])

theorem exists_runAt (hp : p.pos ≤ f.length p.list) :
    ∃ before run after, f.RunAt p before run after := by
  obtain ⟨front, before, hfront, htext, hfirst⟩ :=
    f.exists_text_append ((f.elements p.list).take p.pos).reverse
  obtain ⟨back, after, hback, htext', hlast⟩ :=
    f.exists_text_append ((f.elements p.list).drop p.pos)
  have htake : (f.elements p.list).take p.pos = before.reverse ++ front.reverse := by
    rw [← List.reverse_append, ← hfront, List.reverse_reverse]
  have hpos : p.pos = before.length + front.length := by
    have hlength := congrArg List.length htake
    rwa [List.length_take_of_le hp, List.length_append, List.length_reverse,
      List.length_reverse] at hlength
  exact ⟨before.reverse, front.reverse ++ back, after, {
    list := by
      rw [← List.take_append_drop p.pos (f.elements p.list), htake, hback]
      simp
    le_pos := by simp [hpos]
    pos_le := by
      simp only [hpos, List.length_reverse, List.length_append]
      omega
    text := by simpa [or_imp, forall_and] using ⟨htext, htext'⟩
    first := by simpa using hfirst
    last := hlast }⟩

/-- There is one run of text around a place. -/
theorem RunAt.textRun_eq (h : f.RunAt p before run after) :
    f.textRun p.list p.pos = .ok (before.length, before.length + run.length) := by
  obtain ⟨front, back, rfl, hpos⟩ : ∃ front back, run = front ++ back ∧
      p.pos = before.length + front.length := by
    have hle := h.le_pos
    have hge := h.pos_le
    refine ⟨run.take (p.pos - before.length), run.drop (p.pos - before.length),
      (List.take_append_drop _ _).symm, ?_⟩
    rw [List.length_take_of_le (by omega)]
    omega
  have hlist : f.elements p.list = (before ++ front) ++ (back ++ after) := by simp [h.list]
  have hlen : (before ++ front).length = p.pos := by rw [List.length_append, hpos]
  have hfront : ∀ e ∈ front.reverse, f.isText e = true := fun e he =>
    h.text e (List.mem_append_left _ (List.mem_reverse.mp he))
  have hback : ∀ e ∈ back, f.isText e = true := fun e he =>
    h.text e (List.mem_append_right _ he)
  have hfirst := takeWhile_isText hfront (f := f) (show ∀ e ∈ before.reverse.head?, _ by
    simpa using h.first)
  rw [textRun, if_pos (by rw [length, hlist, List.length_append]; omega)]
  simp only [hlist, List.take_left' hlen, List.drop_left' hlen, List.reverse_append,
    takeWhile_isText hback h.last,
    hfirst]
  simp only [List.length_reverse, List.length_append, Except.ok.injEq, Prod.mk.injEq]
  omega

theorem RunAt.length_texts (h : f.RunAt p before run after) :
    (f.texts run).length = run.length := by
  rw [texts, List.length_filterMap_eq_countP, List.countP_eq_length]
  exact h.text

/-- The texts of elements are out of italics, and so are the words they make up. -/
theorem unitalicize_of_mem_words {name : String} (h : name ∈ f.words es) :
    Text.unitalicize name = name := by
  have hplain : ∀ text ∈ f.texts es, ∀ c ∈ text.toList, Text.plain c = c := by
    intro text htext c hc
    obtain ⟨e, -, he⟩ := List.mem_filterMap.mp htext
    obtain ⟨stored, rfl⟩ : ∃ stored, Text.unitalicize stored = text := by
      unfold kind at he
      cases hx : f.element e <;> simp [hx, Element.kind, Kind.text?] at he
      all_goals exact ⟨_, he⟩
    obtain ⟨d, -, rfl⟩ : ∃ d ∈ stored.toList, Text.plain d = c := by
      simpa [Text.unitalicize] using hc
    exact Text.plain_plain d
  have hchars : ∀ c ∈ name.toList, Text.plain c = c := by
    intro c hc
    have hmem : c ∈ (String.join (f.words es)).toList := by
      rw [String.toList_join]
      exact List.mem_flatMap.mpr ⟨name, h, hc⟩
    rw [words, Symbol.join_splitWords, String.toList_join] at hmem
    obtain ⟨text, htext, hc⟩ := List.mem_flatMap.mp hmem
    exact hplain text htext c hc
  rw [Text.unitalicize, List.map_congr_left hchars, List.map_id', String.ofList_toList]

/-! ## New elements for words -/

/-- From an index of a run on, there are new elements in the place of the run's own: one for each
word that is left, these being as the words say. The index is the first at which word and text
differ. All else is as it was. -/
structure Reworded (f g : Formula) (l : ListId) (before run after es : List ElementId) (k : Nat) :
    Prop extends
    f.Replaces g ⟨l, before.length + k, before.length + run.length⟩ es where
  lt_words : k < (f.words run).length
  lt_run : k < run.length
  kept : (f.words run).take k = (f.texts run).take k
  differs : (f.words run)[k]? ≠ (f.texts run)[k]?
  tidy : g.Tidy
  keeps : f.Keeps g
  left : g.elements l = before ++ (run.take k ++ (es ++ after))
  gone : ∀ e ∈ run.drop k, g.parent e = none
  spells : g.Spells es (((f.words run).drop k).map Node.ofWord)

theorem uprightAll_words (f : Formula) (run : List ElementId) (k : Nat) :
    Node.uprightAll (((f.words run).drop k).map Node.ofWord) =
      ((f.words run).drop k).map Node.ofWord := by
  rw [Node.uprightAll_eq_map, List.map_map]
  refine List.map_congr_left fun word hword => ?_
  exact Node.upright_ofWord (unitalicize_of_mem_words (List.mem_of_mem_drop hword))

theorem Tidy.reworded {f : Formula} {l : ListId} {before run after : List ElementId} {k : Nat}
    (hf : f.Tidy) (hl : f.Reachable l) (hlist : f.elements l = before ++ (run ++ after))
    (htext : ∀ e ∈ run, f.isText e = true)
    (hfirst : firstDifference? (f.words run) (f.texts run) = some k) :
    ∃ g es, (f.plantAll (((f.words run).drop k).map Node.ofWord)).2 = es ∧
      (f.plantAll (((f.words run).drop k).map Node.ofWord)).1.splice l (before.length + k)
        (before.length + run.length) es = .ok (g, run.drop k) ∧
      f.Reworded g l before run after es k := by
  obtain ⟨hwords, htexts, hkept, hdiffers⟩ := firstDifference?_eq_some_iff.mp hfirst
  have hlt : k < run.length := Nat.lt_of_lt_of_le htexts (List.length_filterMap_le _ _)
  have hp := planted.2 (((f.words run).drop k).map Node.ofWord) f [] hf.toSound (by simp)
  have hspells := spells_plantAll f (((f.words run).drop k).map Node.ofWord)
  rw [uprightAll_words] at hspells
  obtain ⟨hg, hgrows, hready⟩ := hf.plantAll (Node.everyNode_filled_ofWord ((f.words run).drop k))
  generalize f.plantAll (((f.words run).drop k).map Node.ofWord) = planted at *
  obtain ⟨g, es⟩ := planted
  have hhas := hf.hasList_of_reachable hl
  have hhas' := hgrows.hasList hhas
  have hsame := hgrows.elements hhas
  have hle : before.length + k ≤ before.length + run.length := Nat.add_le_add_left hlt.le _
  have hlen : before.length + run.length ≤ g.length l := by
    rw [length, hsame, hlist]
    simp only [List.length_append]
    omega
  obtain ⟨hrange, hreplaced⟩ := range_drop_of_split (hsame.trans hlist) hlt.le es
  have hgone := (hg.loose_range hhas' hle hready.toLoose).parent
  rw [hrange] at hgone
  have hreplaces := Replaces.of_grows
    (s := ⟨l, before.length + k, before.length + run.length⟩) hgrows hhas hp.fresh
  refine ⟨(g.replaceRange l (before.length + k) (before.length + run.length) es).1, es, rfl,
    (splice_eq hle hlen).trans (congrArg (fun removed => Except.ok (_, removed)) hrange), {
    toReplaces := hreplaces
    lt_words := hwords
    lt_run := hlt
    kept := hkept
    differs := hdiffers
    tidy := hg.replaceRange hhas' hle hready
    keeps := hgrows.keeps_replaceText hf.toLinked hhas hle fun e he => ?_
    left := by rw [elements_replaceRange hhas', if_pos rfl, hreplaced]
    gone := hgone
    spells := hspells.replaceRange hg.toSound (hgrows.keeps.reachable hl) hready.toLoose
      hready.whole }⟩
  rw [(range_drop_of_split hlist hlt.le es).1] at he
  exact htext e (List.mem_of_mem_drop he)

theorem Spells.length_eq {ns : List Node} (h : f.Spells es ns) : es.length = ns.length := by
  obtain ⟨d, hd⟩ := h
  rw [← hd d (Nat.le_refl d), List.length_map]

theorem Reworded.length_new {g : Formula} {l : ListId} {k : Nat}
    (h : f.Reworded g l before run after es k) : es.length = (f.words run).length - k := by
  rw [h.spells.length_eq, List.length_map, List.length_drop]

theorem Reworded.mem_elements {g : Formula} {l : ListId} {e : ElementId} {k : Nat}
    (h : f.Reworded g l before run after es k) (he : e ∈ es) : e ∈ g.elements l := by
  rw [h.left]
  simp [he]

theorem Reworded.getElem?_first {g : Formula} {l : ListId} {e : ElementId} {k : Nat}
    (h : f.Reworded g l before run after (e :: es) k) :
    (g.elements l)[before.length + k]? = some e := by
  have hlen : (before ++ run.take k).length = before.length + k := by
    rw [List.length_append, List.length_take_of_le h.lt_run.le]
  rw [h.left, ← List.append_assoc, ← hlen, List.getElem?_append_right (Nat.le_refl _),
    Nat.sub_self]
  rfl

/-- The words in the place of the rest of the run are the text that the rest was. -/
theorem Reworded.join_drop {g : Formula} {l : ListId} {k : Nat}
    (h : f.Reworded g l before run after es k) :
    String.join ((f.words run).drop k) = String.join ((f.texts run).drop k) := by
  have hjoin : String.join (f.words run) = String.join (f.texts run) := Symbol.join_splitWords _
  rw [← List.take_append_drop k (f.words run), ← List.take_append_drop k (f.texts run),
    String.join_append, String.join_append, h.kept] at hjoin
  exact String.append_right_inj _ |>.mp hjoin

end Formula

namespace Document

open Formula

variable {doc : Document} {before run after : List ElementId}

/-- What comes of reading a run at the caret again. Where each word is a text, nothing does.
Otherwise words are put in the place of the end of the run, and the caret goes into the first of
them if that opens, and else one step on from before it. -/
inductive Reread (doc : Document) (before run after : List ElementId) : Document → Prop
  | settled (h : doc.formula.words run <+: doc.formula.texts run) : Reread doc before run after doc
  | opened {g : Formula} {es : List ElementId} {k : Nat} {e : ElementId} {entry : ListId}
    (reworded : doc.formula.Reworded g doc.caret.place.list before run after es k)
    (head : es.head? = some e) (opening : (g.element e).opening? = some entry) :
    Reread doc before run after
      { doc with formula := g, caret := doc.caret.moveTo (startOf entry) }
  | passed {g : Formula} {es : List ElementId} {k : Nat} {e : ElementId} {q : Place}
    (reworded : doc.formula.Reworded g doc.caret.place.list before run after es k)
    (head : es.head? = some e) (opening : (g.element e).opening? = none)
    (step : g.step? ⟨doc.caret.place.list, before.length + k⟩ .right = .ok (some q)) :
    Reread doc before run after { doc with formula := g, caret := doc.caret.cancel.moveTo q }

theorem convertWords_reread (hf : doc.formula.Tidy) (hp : doc.formula.IsPlace doc.caret.place)
    (hrun : doc.formula.RunAt doc.caret.place before run after) :
    Succeeds (doc.convertWords doc.caret.place.list) (doc.Reread before run after) := by
  have htaken : ((doc.formula.elements doc.caret.place.list).drop before.length).take
      (before.length + run.length - before.length) = run := range_of_split hrun.list
  unfold Document.convertWords
  simp only [hrun.textRun_eq, bind, Except.bind, htaken]
  split
  · rename_i hnone
    exact .ok (.settled ((firstDifference?_eq_none_iff (Symbol.join_splitWords _)
      fun name hname => Symbol.ne_empty_of_mem_splitWords hname).mp hnone))
  · rename_i k hfirst
    obtain ⟨g, es, hes, hsplice, hreworded⟩ :=
      hf.reworded hp.reachable hrun.list hrun.text hfirst
    have hlength := hreworded.length_new
    have hlt := hreworded.lt_words
    obtain ⟨e, rest, rfl⟩ : ∃ e rest, es = e :: rest :=
      List.exists_cons_of_length_pos (by omega)
    simp only [Formula.words, Formula.texts] at hes hsplice
    simp only [splice, hes, hsplice, bind, Except.bind, List.head?_cons, Option.bind_some]
    cases hopening : (g.element e).opening? with
    | some entry => exact .ok (.opened hreworded rfl hopening)
    | none =>
      have hstep := step?_right_of_getElem? hreworded.getElem?_first
      simp only [moveCaret, move]
      rw [Caret.move_eq hstep]
      exact .ok (.passed hreworded rfl hopening hstep)

/-- Nothing changes just where each word is a text already. -/
theorem convertWords_eq_self_iff (hf : doc.formula.Tidy)
    (hp : doc.formula.IsPlace doc.caret.place)
    (hrun : doc.formula.RunAt doc.caret.place before run after) :
    doc.convertWords doc.caret.place.list = .ok doc ↔
      doc.formula.words run <+: doc.formula.texts run := by
  obtain ⟨doc', hconvert, hreread⟩ := convertWords_reread hf hp hrun
  have hnew : ∀ {g : Formula} {es : List ElementId} {k : Nat} {e : ElementId},
      doc.formula.Reworded g doc.caret.place.list before run after es k → es.head? = some e →
        g ≠ doc.formula ∧ ¬doc.formula.words run <+: doc.formula.texts run := by
    intro g es k e hreworded hhead
    have hmem := List.mem_of_head? hhead
    refine ⟨?_, fun hprefix => hreworded.differs ?_⟩
    · rintro rfl
      exact hreworded.new e hmem (hf.hasElement (hreworded.mem_elements hmem))
    · obtain ⟨rest, hrest⟩ := hprefix
      rw [← hrest, List.getElem?_append_left hreworded.lt_words]
  rw [hconvert, Except.ok.injEq]
  cases hreread with
  | settled h => exact iff_of_true rfl h
  | opened hreworded hhead hopening | passed hreworded hhead hopening hstep =>
    obtain ⟨hne, hnot⟩ := hnew hreworded hhead
    exact iff_of_false (fun hc => hne (congrArg Document.formula hc)) hnot

/-- Reading a run again replaces the end of it, from the first word on that is not the text at its
index. All else stays in place, no text is lost, and the caret is at a place of the formula. -/
theorem convertWords_replaces_suffix (hf : doc.formula.Tidy)
    (hp : doc.formula.IsPlace doc.caret.place) : ∃ before run after,
      doc.formula.RunAt doc.caret.place before run after ∧
      (doc.formula.words run <+: doc.formula.texts run ∧
          doc.convertWords doc.caret.place.list = .ok doc ∨
        ∃ k new doc', doc.convertWords doc.caret.place.list = .ok doc' ∧
          doc.formula.Reworded doc'.formula doc.caret.place.list before run after new k ∧
          new.length = ((doc.formula.words run).drop k).length ∧
          String.join ((doc.formula.words run).drop k) =
            String.join ((doc.formula.texts run).drop k) ∧
          doc'.formula.IsPlace doc'.caret.place ∧
          ∃ first, new.head? = some first ∧
            ((∃ op top bottom, doc'.formula.element first = .big op top bottom ∧
                doc'.caret = doc.caret.moveTo (startOf bottom)) ∨
              (∀ op top bottom, doc'.formula.element first ≠ .big op top bottom) ∧
                ∃ q, doc'.formula.step? ⟨doc.caret.place.list, before.length + k⟩ .right =
                    .ok (some q) ∧
                  doc'.caret = doc.caret.cancel.moveTo q)) := by
  obtain ⟨before, run, after, hrun⟩ := exists_runAt hp.le_length
  obtain ⟨doc', hconvert, hreread⟩ := convertWords_reread hf hp hrun
  refine ⟨before, run, after, hrun, ?_⟩
  cases hreread with
  | settled h => exact .inl ⟨h, hconvert⟩
  | @opened g es k e entry hreworded hhead hopening =>
    have hreach := (hreworded.keeps.reachable hp.reachable).inside
      (hreworded.mem_elements (List.mem_of_head? hhead)) (Element.mem_lists_of_opening? hopening)
    refine .inr ⟨k, es, _, hconvert, hreworded, ?_, hreworded.join_drop, isPlace_startOf hreach, e,
      hhead, .inl ?_⟩
    · rw [hreworded.length_new, List.length_drop]
    · cases hx : g.element e <;> simp_all [Element.opening?]
  | @passed g es k e q hreworded hhead hopening hstep =>
    have hstart : g.IsPlace ⟨doc.caret.place.list, before.length + k⟩ := by
      refine ⟨hreworded.keeps.reachable hp.reachable, ?_⟩
      rw [length, hreworded.left, ← List.append_assoc, List.length_append, List.length_append,
        List.length_take_of_le hreworded.lt_run.le]
      exact Nat.le_add_right _ _
    refine .inr ⟨k, es, _, hconvert, hreworded, ?_, hreworded.join_drop, ?_, e, hhead,
      .inr ⟨?_, q, hstep, rfl⟩⟩
    · rw [hreworded.length_new, List.length_drop]
    · exact (hreworded.tidy.step? hstart).of_eq_ok hstep q rfl
    · intro op top bottom hx
      simp [hx, Element.opening?] at hopening

theorem convertWords_replaces_suffix_sine : ∃ doc,
    doc = Document.ofNodes [.atom "s", .atom "i", .atom "n"] true ∧ doc.formula.Tidy ∧
      doc.formula.IsPlace doc.caret.place ∧ ∃ before run after k new doc',
        doc.formula.RunAt doc.caret.place before run after ∧
          doc.convertWords doc.caret.place.list = .ok doc' ∧
          doc.formula.Reworded doc'.formula doc.caret.place.list before run after new k := by
  have hvalid : (Document.ofNodes [.atom "s", .atom "i", .atom "n"] true).Valid := by
    refine valid_ofNodes ?_
    simp [Node.everyNode_cons, Node.everyNode_nil, Node.lists, Node.Filled]
  obtain ⟨before, run, after, hrun, ⟨-, hsettled⟩ | ⟨k, new, doc', hconvert, hreworded, -⟩⟩ :=
    convertWords_replaces_suffix hvalid.formula hvalid.caret.place
  · exact absurd hsettled (by decide +kernel)
  · exact ⟨_, rfl, hvalid.formula, hvalid.caret.place, before, run, after, k, new, doc', hrun,
      hconvert, hreworded⟩

end Document

end FormulaEditor
