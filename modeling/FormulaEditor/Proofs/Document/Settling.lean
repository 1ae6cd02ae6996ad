import FormulaEditor.Proofs.Document.Rereading
import Mathlib.Data.List.Forall2

/-!
# Runs that are settled

Once a run of text has been read again, what is there shows other text than before: a Greek letter
shows a symbol, and operators and constructs show none. The texts that are left are words still,
save for one: behind a letter whose name ends in `u` the letters of `psi` were no word, and are one
now.
-/

namespace FormulaEditor

/-- The text at the beginning of a row of which some have texts. -/
def leadingText : List (Option String) → String
  | some text :: rest => text ++ leadingText rest
  | _ => ""

/-- The text that a word shows in a formula: itself, the symbol it names, or none. -/
inductive Shows (word : String) : Option String → Prop
  | self : Shows word (some word)
  | letter {c : Char} (named : Symbol.greekLetter? word = some c) (hc : c.isAlpha = false) :
    Shows word (some (String.singleton c))
  | other (hlast : word.toList.getLast?.any Symbol.opensPsi = false) : Shows word none

theorem text?_ofWord_of_greekLetter? {word : String} {c : Char}
    (h : Symbol.greekLetter? word = some c) :
    (Node.ofWord word).kind.text? = some (String.singleton c) ∧ c.isAlpha = false := by
  have hletters : ∀ entry ∈ Symbol.greekLetters,
      (Node.ofWord entry.1).kind.text? = some (String.singleton entry.2) ∧
        entry.2.isAlpha = false := by
    decide +kernel
  exact hletters _ (Tex.mem_of_lookup h)

/-- A single character stands for an operator or for itself. -/
theorem Node.ofWord_singleton (c : Char) : Node.ofWord (String.singleton c) =
    (BinaryOp.ofKey? c).elim (.atom (String.singleton c)) .binary := by
  have hlist : (String.singleton c).toList = [c] := String.toList_singleton c
  have hwords : ∀ word ∈ Symbol.words, String.singleton c ≠ word := by
    rintro word hword rfl
    exact Symbol.length_ne_one_of_mem hword (by rw [hlist]; rfl)
  have hfunction : Symbol.isFunction (String.singleton c) = false := by
    refine Bool.eq_false_iff.mpr fun hc => ?_
    refine hwords _ (List.mem_append_left _ (List.mem_append_right _ ?_)) rfl
    simpa [Symbol.isFunction] using hc
  have hconstruct : ∀ word ∈ Symbol.constructs, String.singleton c ≠ word := fun word hword =>
    hwords word (List.mem_append_right _ hword)
  generalize String.singleton c = word at *
  unfold Node.ofWord
  split <;> try exact absurd rfl (hconstruct _ (by decide))
  rw [if_neg (by simp [hfunction])]
  simp [hlist]

theorem shows_ofWord {word : String}
    (h : word ∈ Symbol.words ∨ ∃ c, Text.plain c = c ∧ word = String.singleton c) :
    Shows word (Node.ofWord word).kind.text? := by
  have hothers : ∀ word ∈ Symbol.functions ++ Symbol.constructs,
      (Node.ofWord word).kind.text? = some word ∨
      (Node.ofWord word).kind.text? = none ∧
        word.toList.getLast?.any Symbol.opensPsi = false := by
    decide +kernel
  have hother : word ∈ Symbol.functions ++ Symbol.constructs →
      Shows word (Node.ofWord word).kind.text? := by
    intro hword
    obtain htext | ⟨htext, hlast⟩ := hothers word hword
    · exact htext ▸ .self
    · exact htext ▸ .other hlast
  obtain h | ⟨c, hc, rfl⟩ := h
  · obtain hnamed | hfunction | hconstruct := Symbol.greekLetter?_or_function_or_construct h
    · obtain ⟨c, hnamed⟩ := Option.isSome_iff_exists.mp hnamed
      obtain ⟨htext, halpha⟩ := text?_ofWord_of_greekLetter? hnamed
      exact htext ▸ .letter hnamed halpha
    · refine hother (List.mem_append_left _ ?_)
      simpa [Symbol.isFunction] using hfunction
    · exact hother (List.mem_append_right _ hconstruct)
  · rw [Node.ofWord_singleton]
    cases hop : BinaryOp.ofKey? c with
    | some op =>
      refine .other ?_
      have hkey : BinaryOp.isKey c = true := by
        by_contra hc
        simp [BinaryOp.ofKey?, hc] at hop
      simp only [BinaryOp.isKey, Bool.or_eq_true, beq_iff_eq] at hkey
      obtain ((rfl | rfl) | rfl) | rfl := hkey <;> decide
    | none =>
      have htext : Text.unitalicize (String.singleton c) = String.singleton c := by
        rw [Text.unitalicize_singleton, hc]
      simpa [Node.kind, Kind.text?, htext] using @Shows.self (String.singleton c)

section Reading

variable {names shown : List String} {front row back : List (Option String)}

theorem leadingText_map_some (hback : ∀ o ∈ back.head?, o = none) :
    leadingText (shown.map some ++ back) = String.join shown := by
  induction shown with
  | nil =>
    cases back with
    | nil => rfl
    | cons o back =>
      obtain rfl := hback o rfl
      rfl
  | cons text shown ih => simp [leadingText, ih]

/-- Texts shown for words, with some of the words behind them left off. -/
theorem masks_of_shows (h : List.Forall₂ Shows names (shown.map some)) (rest : List (List Char)) :
    Symbol.Masks (names.map String.toList ++ rest) (shown.map String.toList) := by
  induction shown generalizing names with
  | nil =>
    cases h
    exact .stop _
  | cons text shown ih =>
    cases h with
    | cons hword h =>
      cases hword with
      | self => exact .keep _ (ih h)
      | letter named hc => simpa using .symbol _ hc (ih h)

theorem ne_empty_of_shows (h : List.Forall₂ Shows names front)
    (hnames : ∀ name ∈ names, name ≠ "") {text : String} (htext : some text ∈ front) :
    text ≠ "" := by
  induction h with
  | nil => cases htext
  | cons hword _ ih =>
    obtain ⟨hname, hnames⟩ := List.forall_mem_cons.mp hnames
    obtain rfl | htext := List.mem_cons.mp htext
    · cases hword with
      | self => exact hname
      | letter named hc => exact fun h => by simpa using congrArg String.toList h
    · exact ih hnames htext

/-- Behind what shows no text `psi` is a word. -/
theorem opensPsi_of_shows_none (h : List.Forall₂ Shows names front)
    (hfront : ∀ o ∈ front.getLast?, o = none) :
    (((names.map String.toList).getLast?.map List.getLast?).getD none).any Symbol.opensPsi =
      false := by
  have h := List.rel_reverse h
  rw [List.getLast?_map]
  rw [← List.head?_reverse] at hfront ⊢
  generalize names.reverse = words at h ⊢
  generalize front.reverse = shown at h hfront
  cases h with
  | nil => rfl
  | cons hword _ =>
    obtain rfl := hfront _ rfl
    cases hword with
    | other hlast => exact hlast

/-- Among words of a text, the texts of a run are words of their own unless a symbol has come in
front of the letters of `psi`. -/
theorem splitWords_run_iff (hs : Symbol.Splits none (names.map String.toList))
    (hshows : List.Forall₂ Shows names (front ++ (shown.map some ++ back)))
    (hfront : ∀ o ∈ front.getLast?, o = none) (hback : ∀ o ∈ back.head?, o = none) :
    Symbol.splitWords (String.join shown) = shown ↔
      ∀ i name text, names[front.length + i]? = some name → shown[i]? = some text → text ≠ name →
        name.toList.getLast?.any Symbol.opensPsi = true →
          ¬"psi".toList <+: (leadingText ((front ++ (shown.map some ++ back)).drop
            (front.length + (i + 1)))).toList := by
  have hbefore := List.forall₂_take_append names front _ hshows
  have hbehind := List.forall₂_drop_append names front _ hshows
  have hrun := List.forall₂_take_append _ (shown.map some) back hbehind
  rw [← List.take_append_drop front.length names, List.map_append] at hs
  have hmasks := masks_of_shows hrun
    (((names.drop front.length).drop (shown.map some).length).map String.toList)
  rw [← List.map_append, List.take_append_drop] at hmasks
  have hdrop : ∀ {i text}, shown[i]? = some text →
      leadingText ((front ++ (shown.map some ++ back)).drop (front.length + (i + 1))) =
        String.join (shown.drop (i + 1)) := by
    intro i text htext
    have hlt := (List.getElem?_eq_some_iff.mp htext).1
    rw [← List.drop_drop, List.drop_left,
      List.drop_append_of_le_length (by simpa using Nat.succ_le_of_lt hlt), ← List.map_drop, leadingText_map_some hback]
  have hflatten : ∀ i, (String.join (shown.drop (i + 1))).toList =
      ((shown.map String.toList).drop (i + 1)).flatten := fun i => by
    rw [String.toList_join, List.flatMap_def, List.map_drop]
  have hsplits : Symbol.Splits none (shown.map String.toList) ↔ _ := hmasks.splits_iff hs.of_append
    fun _ => (opensPsi_of_shows_none hbefore hfront).symm
  rw [Symbol.splitWords_join_eq_iff, hsplits]
  simp only [List.getElem?_map, List.getElem?_drop]
  constructor
  · intro h i name text hname htext hne
    rw [hdrop htext, hflatten]
    exact h i name.toList text.toList (by rw [hname]; rfl) (by rw [htext]; rfl)
      fun hc => hne (String.toList_injective hc)
  · intro h i token symbol htoken hsymbol hne
    obtain ⟨name, hname, rfl⟩ := Option.map_eq_some_iff.mp htoken
    obtain ⟨text, htext, rfl⟩ := Option.map_eq_some_iff.mp hsymbol
    have := h i name text hname htext fun hc => hne (congrArg String.toList hc)
    rwa [hdrop htext, hflatten] at this

end Reading

/-! ## The texts of a list that was read again -/

theorem Element.kind_toNode {x : Element} {read : ListId → List Node} :
    (x.toNode read).kind = x.kind := by
  cases x <;> simp [Element.toNode, Node.kind, Element.kind, Text.unitalicize_unitalicize]

namespace Formula

variable {f g : Formula} {l : ListId} {before run after es : List ElementId} {ns : List Node}
  {pending : List ElementId} {k : Nat}

/-- The texts of elements, those without one included. -/
def row (f : Formula) (es : List ElementId) : List (Option String) :=
  es.map fun e => (f.kind e).text?

theorem row_of_text (h : ∀ e ∈ es, f.isText e = true) : f.row es = (f.texts es).map some := by
  induction es with
  | nil => rfl
  | cons e es ih =>
    obtain ⟨he, hes⟩ := List.forall_mem_cons.mp h
    obtain ⟨text, htext⟩ := Option.isSome_iff_exists.mp he
    have hcons : f.texts (e :: es) = text :: f.texts es := List.filterMap_cons_some htext
    rw [hcons, List.map_cons, ← ih hes, ← htext]
    rfl

theorem Spells.row_eq (h : f.Spells es ns) : f.row es = ns.map fun n => n.kind.text? := by
  obtain ⟨d, hd⟩ := h
  rw [← hd d (Nat.le_refl d), List.map_map]
  exact List.map_congr_left fun e _ => congrArg Kind.text? Element.kind_toNode.symm

/-- What a run shows of its words once it was read again. -/
theorem Reworded.row_eq {p : Place} (h : f.Reworded g p.list before run after es k)
    (hf : f.Linked pending) (hrun : f.RunAt p before run after) :
    g.row (run.take k ++ es) = ((f.words run).take k).map some ++
      ((f.words run).drop k).map fun word => (Node.ofWord word).kind.text? := by
  have hkept : g.row (run.take k) = (f.row run).take k := by
    rw [row, row, ← List.map_take]
    refine List.map_congr_left fun e he => ?_
    have hmem : e ∈ f.elements p.list := by
      rw [hrun.list]
      simp [List.mem_of_mem_take he]
    rw [kind, h.element e (hf.hasElement hmem), kind]
  rw [row, List.map_append, ← row, ← row, hkept, row_of_text hrun.text, ← List.map_take, ← h.kept,
    h.spells.row_eq, List.map_map]
  rfl

/-- A word of a text is one of the listed words or a single character out of italics. -/
theorem mem_words_or_singleton {name : String} (h : name ∈ f.words es) :
    name ∈ Symbol.words ∨ ∃ c, Text.plain c = c ∧ name = String.singleton c := by
  refine (Symbol.mem_splitWords h).imp_right ?_
  rintro ⟨c, -, rfl⟩
  refine ⟨c, ?_, rfl⟩
  simpa [Text.unitalicize_singleton, ← String.toList_inj] using unitalicize_of_mem_words h

theorem Reworded.shows_row {p : Place} (h : f.Reworded g p.list before run after es k)
    (hf : f.Linked pending) (hrun : f.RunAt p before run after) :
    List.Forall₂ Shows (f.words run) (g.row (run.take k ++ es)) := by
  rw [h.row_eq hf hrun]
  conv => arg 2; rw [← List.take_append_drop k (f.words run)]
  refine List.rel_append ?_ ?_
  · rw [List.forall₂_map_right_iff, List.forall₂_same]
    exact fun name _ => .self
  · rw [List.forall₂_map_right_iff, List.forall₂_same]
    exact fun name hname => shows_ofWord (mem_words_or_singleton (List.mem_of_mem_drop hname))

/-- A list with nothing but text in it is one run. -/
theorem runAt_of_text {p : Place} (hp : p.pos ≤ f.length p.list)
    (h : ∀ e ∈ f.elements p.list, f.isText e = true) :
    f.RunAt p [] (f.elements p.list) [] where
  list := by simp
  le_pos := Nat.zero_le _
  pos_le := by simpa [length] using hp
  text := h
  first := by simp
  last := by simp

/-- Texts that are not empty are words of their own as soon as the words are the first of them. -/
theorem words_prefix_iff (h : ∀ text ∈ f.texts es, text ≠ "") :
    f.words es <+: f.texts es ↔ f.words es = f.texts es := by
  refine ⟨?_, fun h => h ▸ List.prefix_rfl⟩
  rintro ⟨rest, hrest⟩
  have hjoin : String.join (f.words es) = String.join (f.texts es) := Symbol.join_splitWords _
  rw [← hrest, String.join_append] at hjoin
  cases rest with
  | nil => rw [← hrest, List.append_nil]
  | cons text rest =>
    have htext := h text (hrest ▸ by simp)
    have hlist := congrArg String.toList hjoin
    rw [String.toList_append, List.self_eq_append_right, String.toList_join, List.flatMap_cons,
      List.append_eq_nil_iff] at hlist
    exact absurd (String.toList_injective hlist.1) htext

theorem splits_words (f : Formula) (es : List ElementId) :
    Symbol.Splits none ((f.words es).map String.toList) :=
  Symbol.splits_splitWords _

section Again

variable {p q : Place} {front mid back : List ElementId}

theorem row_of_isText_eq_false {e : ElementId} (h : f.isText e = false) : (f.kind e).text? = none :=
  Option.not_isSome_iff_eq_none.mp (Bool.eq_false_iff.mp h)

/-- The texts of a list are those of a run of it, between two elements without. -/
theorem RunAt.row_eq (hq : f.RunAt q front mid back) :
    f.row (f.elements q.list) = f.row front ++ ((f.texts mid).map some ++ f.row back) ∧
      (∀ o ∈ (f.row front).getLast?, o = none) ∧ ∀ o ∈ (f.row back).head?, o = none := by
  refine ⟨?_, fun o ho => ?_, fun o ho => ?_⟩
  · rw [← row_of_text hq.text, hq.list, row, List.map_append, List.map_append]
    rfl
  · rw [row, List.getLast?_map, Option.mem_map] at ho
    obtain ⟨e, he, rfl⟩ := ho
    exact row_of_isText_eq_false (hq.first e he)
  · rw [row, List.head?_map, Option.mem_map] at ho
    obtain ⟨e, he, rfl⟩ := ho
    exact row_of_isText_eq_false (hq.last e he)

/-- The text at a place is one of the run there. -/
theorem RunAt.exists_getElem? (hq : f.RunAt q front mid back) {text : String}
    (h : (f.row (f.elements q.list))[q.pos]? = some (some text)) :
    ∃ i, q.pos = front.length + i ∧ (f.texts mid)[i]? = some text := by
  obtain ⟨hrow, -, hback⟩ := hq.row_eq
  have hlength : (f.row front).length = front.length := List.length_map _
  have hle := hq.le_pos
  have hge := hq.pos_le
  have hmid := hq.length_texts
  refine ⟨q.pos - front.length, (Nat.add_sub_cancel' hle).symm, ?_⟩
  rw [hrow, List.getElem?_append_right (by omega), hlength] at h
  by_cases hlt : q.pos - front.length < (f.texts mid).length
  · rw [List.getElem?_append_left (by simpa using hlt), List.getElem?_map] at h
    simpa using h
  · have hend : q.pos - front.length = (f.texts mid).length := by omega
    rw [List.getElem?_append_right (by simp [hend]), hend, List.length_map, Nat.sub_self,
      ← List.head?_eq_getElem?] at h
    cases hback _ h

/-- A run of a list that was read again is settled unless a symbol has come in front of the letters
of `psi`. -/
theorem Reworded.settled_run_iff (h : f.Reworded g p.list [] run [] es k) (hf : f.Linked pending)
    (hrun : f.RunAt p [] run []) (hq : g.RunAt q front mid back) (hlist : q.list = p.list) :
    g.words mid <+: g.texts mid ↔
      ∀ i name text, (f.words run)[front.length + i]? = some name →
        (g.texts mid)[i]? = some text → text ≠ name →
          name.toList.getLast?.any Symbol.opensPsi = true →
            ¬"psi".toList <+: (leadingText ((g.row (g.elements p.list)).drop
              (front.length + (i + 1)))).toList := by
  have hshows := h.shows_row hf hrun
  have hleft : run.take k ++ es = g.elements p.list := by simp [h.left]
  obtain ⟨hrow, hfront, hback⟩ := hq.row_eq
  rw [hlist] at hrow
  rw [hleft, hrow] at hshows
  have hne : ∀ text ∈ g.texts mid, text ≠ "" := fun text htext =>
    ne_empty_of_shows hshows (fun _ hname => Symbol.ne_empty_of_mem_splitWords hname)
      (by simp [htext])
  have hiff := splitWords_run_iff (f.splits_words run) hshows hfront hback
  have hlength : (g.row front).length = front.length := List.length_map _
  rw [words_prefix_iff hne, words, hrow, hiff, hlength]

theorem Reworded.row_elements (h : f.Reworded g p.list [] run [] es k) (hf : f.Linked pending)
    (hrun : f.RunAt p [] run []) : g.row (g.elements p.list) =
      ((f.words run).take k).map some ++
        ((f.words run).drop k).map fun word => (Node.ofWord word).kind.text? := by
  rw [← h.row_eq hf hrun, h.left, List.nil_append, List.append_nil]

/-- In front of the first difference each text is the word at its index. -/
theorem Reworded.row_of_lt (h : f.Reworded g p.list [] run [] es k) (hf : f.Linked pending)
    (hrun : f.RunAt p [] run []) {i : Nat} (hi : i < k) :
    (g.row (g.elements p.list))[i]? = (f.words run)[i]?.map some := by
  have hlength : (((f.words run).take k).map some).length = k := by
    rw [List.length_map, List.length_take_of_le h.lt_words.le]
  rw [h.row_elements hf hrun, List.getElem?_append_left (by omega), List.getElem?_map,
    List.getElem?_take_of_lt hi]

/-- From there on the texts are those of the new elements. -/
theorem Reworded.row_drop (h : f.Reworded g p.list [] run [] es k) (hf : f.Linked pending)
    (hrun : f.RunAt p [] run []) {i : Nat} (hi : k ≤ i) :
    (g.row (g.elements p.list)).drop i =
      ((f.words run).drop i).map fun word => (Node.ofWord word).kind.text? := by
  have hlength : (((f.words run).take k).map some).length = k := by
    rw [List.length_map, List.length_take_of_le h.lt_words.le]
  rw [h.row_elements hf hrun, List.drop_append, List.drop_of_length_le (by omega), hlength,
    List.nil_append, ← List.map_drop, List.drop_drop, Nat.add_sub_cancel' hi]

theorem Reworded.take_ne_iff (h : f.Reworded g p.list before run after es k) {i : Nat} :
    (f.words run).take (i + 1) ≠ (f.texts run).take (i + 1) ↔ k ≤ i := by
  constructor
  · intro hne
    by_contra hlt
    have hmin : min (i + 1) k = i + 1 := by omega
    refine hne ?_
    rw [← hmin, ← List.take_take, ← List.take_take, h.kept]
  · intro hle heq
    have hget := congrArg (·[k]?) heq
    simp only [List.getElem?_take_of_lt (Nat.lt_succ_of_le hle)] at hget
    exact h.differs hget

/-- All runs of a list that was read again are settled unless a letter that was put in shows in
front of the letters of `psi`. -/
theorem Reworded.settled_iff (h : f.Reworded g p.list [] run [] es k) (hf : f.Linked pending)
    (hrun : f.RunAt p [] run []) :
    (∀ q front mid back, q.list = p.list → q.pos ≤ g.length p.list → g.RunAt q front mid back →
        g.words mid <+: g.texts mid) ↔
      ∀ i name, (f.words run)[i]? = some name →
        (f.words run).take (i + 1) ≠ (f.texts run).take (i + 1) →
        (Symbol.greekLetter? name).isSome →
        name.toList.getLast?.any Symbol.opensPsi = true →
          ¬"psi".toList <+: (leadingText (((f.words run).drop (i + 1)).map
            fun word => (Node.ofWord word).kind.text?)).toList := by
  have hshown : ∀ {i name}, k ≤ i → (f.words run)[i]? = some name →
      (g.row (g.elements p.list))[i]? = some (Node.ofWord name).kind.text? := by
    intro i name hki hname
    have hhead := congrArg List.head? (h.row_drop hf hrun hki)
    rw [List.head?_drop, List.head?_map, List.head?_drop, hname] at hhead
    exact hhead
  constructor
  · intro hsettled i name hname hne hnamed hlast
    have hki := h.take_ne_iff.mp hne
    obtain ⟨c, hnamed⟩ := Option.isSome_iff_exists.mp hnamed
    obtain ⟨htext, halpha⟩ := text?_ofWord_of_greekLetter? hnamed
    have hget := hshown hki hname
    rw [htext] at hget
    have hpos : i < g.length p.list := by
      have := (List.getElem?_eq_some_iff.mp hget).1
      rwa [row, List.length_map] at this
    obtain ⟨front, mid, back, hq⟩ := exists_runAt (f := g) (p := ⟨p.list, i⟩) hpos.le
    obtain ⟨i', rfl, hmid⟩ := hq.exists_getElem? hget
    have hno := (h.settled_run_iff hf hrun hq rfl).mp
      (hsettled ⟨p.list, front.length + i'⟩ front mid back rfl hpos.le hq) i' name _ hname hmid ?_
      hlast
    · rwa [h.row_drop hf hrun (by omega)] at hno
    · rintro rfl
      simp [Symbol.opensPsi_of_isAlpha_eq_false halpha] at hlast
  · intro hno q front mid back hlist hpos hq
    rw [h.settled_run_iff hf hrun hq hlist]
    intro i name text hname htext hne hlast
    have hget : (g.row (g.elements p.list))[front.length + i]? = some (some text) := by
      have hlength : (g.row front).length = front.length := List.length_map _
      rw [← hlist, hq.row_eq.1, List.getElem?_append_right (by omega), hlength,
        Nat.add_sub_cancel_left, List.getElem?_append_left, List.getElem?_map, htext]
      · rfl
      · simpa using (List.getElem?_eq_some_iff.mp htext).1
    have hki : k ≤ front.length + i := by
      by_contra hlt
      rw [h.row_of_lt hf hrun (by omega), hname] at hget
      exact hne (by simpa using hget.symm)
    have hnamed : (Symbol.greekLetter? name).isSome := by
      have hword := shows_ofWord (mem_words_or_singleton (List.mem_of_getElem? hname))
      rw [Option.some.inj ((hshown hki hname).symm.trans hget)] at hword
      cases hword with
      | self => exact absurd rfl hne
      | letter named _ => rw [named]; rfl
    have hpsi := hno _ name hname (h.take_ne_iff.mpr hki) hnamed hlast
    rwa [← Nat.add_assoc, h.row_drop hf hrun (by omega)]

end Again

end Formula

namespace Document

open Formula

variable {doc : Document}

/-- Reading a list changes nothing at any of its places just if all its runs are settled. -/
theorem convertWords_everywhere_iff {l : ListId} (hf : doc.formula.Tidy)
    (hl : doc.formula.Reachable l) :
    (∀ c : Caret, c.place.list = l → c.place.pos ≤ doc.formula.length l →
        convertWords { doc with caret := c } l = .ok { doc with caret := c }) ↔
      ∀ q front mid back, q.list = l → q.pos ≤ doc.formula.length l →
        doc.formula.RunAt q front mid back →
          doc.formula.words mid <+: doc.formula.texts mid := by
  have hiff : ∀ (c : Caret) {front mid back}, c.place.list = l →
      c.place.pos ≤ doc.formula.length l → doc.formula.RunAt c.place front mid back →
      (convertWords { doc with caret := c } l = .ok { doc with caret := c } ↔
        doc.formula.words mid <+: doc.formula.texts mid) := by
    rintro c front mid back rfl hpos hq
    exact @convertWords_eq_self_iff { doc with caret := c } front mid back hf ⟨hl, hpos⟩ hq
  constructor
  · intro h q front mid back hlist hpos hq
    exact (hiff (.ofPlace q) hlist hpos hq).mp (h _ hlist hpos)
  · rintro h c rfl hpos
    obtain ⟨front, mid, back, hq⟩ := exists_runAt hpos
    exact (hiff c rfl hpos hq).mpr (h _ _ _ _ rfl hpos hq)

/-- Where a list of nothing but text is read again and again, nothing changes after the first time
just if no letter that was put in shows in front of the letters of `psi` where its name ends so that
these were no word. -/
theorem convertWords_again_iff (hf : doc.formula.Tidy) (hp : doc.formula.IsPlace doc.caret.place)
    (htext : ∀ e ∈ doc.formula.elements doc.caret.place.list, doc.formula.isText e = true) :
    ∃ doc', doc.convertWords doc.caret.place.list = .ok doc' ∧
      ((∀ c : Caret, c.place.list = doc.caret.place.list →
          c.place.pos ≤ doc'.formula.length doc.caret.place.list →
            convertWords { doc' with caret := c } doc.caret.place.list =
              .ok { doc' with caret := c }) ↔
        ∀ i name,
          (doc.formula.words (doc.formula.elements doc.caret.place.list))[i]? = some name →
          (doc.formula.words (doc.formula.elements doc.caret.place.list)).take (i + 1) ≠
            (doc.formula.texts (doc.formula.elements doc.caret.place.list)).take (i + 1) →
          (Symbol.greekLetter? name).isSome →
          name.toList.getLast?.any Symbol.opensPsi = true →
            ¬"psi".toList <+: (leadingText
              (((doc.formula.words (doc.formula.elements doc.caret.place.list)).drop (i + 1)).map
                fun word => (Node.ofWord word).kind.text?)).toList) := by
  have hrun := runAt_of_text hp.le_length htext
  obtain ⟨doc', hconvert, hreread⟩ := convertWords_reread hf hp hrun
  refine ⟨doc', hconvert, ?_⟩
  have hchanged : ∀ {g es k} (c : Caret), doc.formula.Reworded g doc.caret.place.list []
      (doc.formula.elements doc.caret.place.list) [] es k → _ := fun {g} _ _ c h =>
    (@convertWords_everywhere_iff { doc with formula := g, caret := c } _ h.tidy
      (h.keeps.reachable hp.reachable)).trans (h.settled_iff hf.toLinked hrun)
  cases hreread with
  | opened h _ _ | passed h _ _ _ => exact hchanged _ h
  | settled h =>
    refine iff_of_true ?_ fun i name hname hne => ?_
    · rintro c hlist hpos
      rw [← hlist] at htext hpos h ⊢
      exact (@convertWords_eq_self_iff { doc with caret := c } _ _ _ hf
        ⟨hlist ▸ hp.reachable, hpos⟩ (runAt_of_text hpos htext)).mpr h
    · -- No word differs from the text at its index.
      obtain ⟨rest, hrest⟩ := h
      have hlt := (List.getElem?_eq_some_iff.mp hname).1
      exact absurd (by rw [← hrest, List.take_append_of_le_length hlt]) hne

theorem convertWords_again_sine : ∃ doc,
    doc = Document.ofNodes [.atom "s", .atom "i", .atom "n"] true ∧ doc.formula.Tidy ∧
      doc.formula.IsPlace doc.caret.place ∧
      (∀ e ∈ doc.formula.elements doc.caret.place.list, doc.formula.isText e = true) ∧
      ∃ doc', doc.convertWords doc.caret.place.list = .ok doc' ∧
        ∀ c : Caret, c.place.list = doc.caret.place.list →
          c.place.pos ≤ doc'.formula.length doc.caret.place.list →
            convertWords { doc' with caret := c } doc.caret.place.list =
              .ok { doc' with caret := c } := by
  have hvalid : (Document.ofNodes [.atom "s", .atom "i", .atom "n"] true).Valid := by
    refine valid_ofNodes ?_
    simp [Node.everyNode_cons, Node.everyNode_nil, Node.lists, Node.Filled]
  have htext : ∀ e ∈ (Document.ofNodes [.atom "s", .atom "i", .atom "n"] true).formula.elements
      (Document.ofNodes [.atom "s", .atom "i", .atom "n"] true).caret.place.list,
      (Document.ofNodes [.atom "s", .atom "i", .atom "n"] true).formula.isText e = true := by
    decide +kernel
  obtain ⟨doc', hconvert, hagain⟩ :=
    convertWords_again_iff hvalid.formula hvalid.caret.place htext
  refine ⟨_, rfl, hvalid.formula, hvalid.caret.place, htext, doc', hconvert, hagain.mpr ?_⟩
  have hwords : (Document.ofNodes [.atom "s", .atom "i", .atom "n"] true).formula.words
      ((Document.ofNodes [.atom "s", .atom "i", .atom "n"] true).formula.elements
        (Document.ofNodes [.atom "s", .atom "i", .atom "n"] true).caret.place.list) = ["sin"] := by
    decide +kernel
  intro i name hname _ hnamed
  rw [hwords] at hname
  obtain rfl := List.mem_singleton.mp (List.mem_of_getElem? hname)
  exact absurd hnamed (by decide +kernel)

/-- The letters of `mupsi` become `μ` and the letters of `psi`, and these become `ψ` the next time,
with the caret where it is. -/
theorem convertWords_again_mupsi :
    (do
      let doc := Document.ofNodes [.atom "m", .atom "u", .atom "p", .atom "s", .atom "i"] true
      let doc' ← doc.convertWords ⟨0⟩
      let doc'' ← doc'.convertWords ⟨0⟩
      return [doc, doc', doc''].map fun doc =>
        (doc.caret.place.list, doc.formula.texts (doc.formula.elements ⟨0⟩))) =
      (.ok [(⟨0⟩, ["m", "u", "p", "s", "i"]), (⟨0⟩, ["μ", "p", "s", "i"]), (⟨0⟩, ["μ", "ψ"])] :
        Except Misuse _) := by
  decide +kernel

end Document

end FormulaEditor
