import FormulaEditor.Proofs.Document.Settling
import FormulaEditor.Proofs.Document.Undoing

/-!
# A digit typed into an exponent

A digit goes into the exponent of some scripts, and then the caret takes one step on. Whether that
step leads out of the exponent depends on what stands behind the digit, on whether the scripts have
a subscript as well, and on what becomes of the text around the digit when it is read again.
-/

namespace FormulaEditor

namespace Formula

variable {f g : Formula} {e : ElementId} {l a half : ListId} {p q : Place} {i n : Nat}
  {pending : List ElementId} {subscript acceptor : Option ListId}

/-! ## One step on -/

/-- A step from inside an element of a list leads at most one element outwards. -/
theorem Sound.below_of_step? (h : f.Sound pending) (hp : f.Below (n + 1) a p.list)
    (hstep : f.step? p .right = .ok (some q)) : ∃ m ≥ n, f.Below m a q.list := by
  cases hget : (f.elements p.list)[p.pos]? with
  | some x =>
    rw [show p = ⟨p.list, p.pos⟩ from rfl, step?_right_of_getElem? hget] at hstep
    cases hlists : f.listsOf x with
    | nil =>
      simp only [hlists, List.head?_nil, Option.elim_none, Except.ok.injEq,
        Option.some.injEq] at hstep
      subst hstep
      exact ⟨n + 1, Nat.le_succ n, hp⟩
    | cons inner rest =>
      simp only [hlists, List.head?_cons, Option.elim_some, Except.ok.injEq,
        Option.some.injEq] at hstep
      subst hstep
      exact ⟨n + 2, by omega, hp.inside (List.mem_of_getElem? hget) (by simp [startOf, hlists])⟩
  | none =>
    have hleave : f.step? p .right = f.leave? p .right := by
      simp [step?, Direction.isVertical, adjacent?, adjacentIndex?, hget]
    cases hp with
    | @inside _ _ outer _ x hbelow hx hlist =>
      obtain ⟨j, hj⟩ := List.mem_iff_getElem?.mp hx
      obtain ⟨before, after, hsplit⟩ := List.append_of_mem hlist
      rw [hleave, (h.leave?_of_split hj hsplit rfl).2] at hstep
      cases after with
      | nil =>
        cases hstep
        exact ⟨n, Nat.le_refl n, hbelow⟩
      | cons next after =>
        cases hstep
        exact ⟨n + 1, Nat.le_succ n, hbelow.inside hx (by simp [startOf, hsplit])⟩

/-- From the end of an exponent the caret goes on to the subscript, and without one past the
scripts. -/
theorem Sound.step?_exponent (h : f.Sound pending) (hget : (f.elements l)[i]? = some e)
    (hx : f.element e = .scripts (some half) subscript acceptor) :
    f.step? (f.endOf half) .right = .ok (some (subscript.elim ⟨l, i + 1⟩ startOf)) := by
  have hlists : f.listsOf e = [] ++ half :: subscript.toList := by
    rw [listsOf, hx]
    rfl
  rw [step?_right_endOf, (h.leave?_of_split hget hlists rfl).2]
  cases subscript <;> rfl

/-- From two elements inside, one step does not lead back to a list. -/
theorem Sound.getD_step?_ne (h : f.Sound pending) (hl : f.Reachable l)
    (hp : f.Below (n + 2) l p.list) {next : Option Place} (hstep : f.step? p .right = .ok next) :
    next.getD p ≠ ⟨l, i⟩ := by
  rintro heq
  cases next with
  | none => exact h.ne_of_below hl hp (congrArg Place.list heq)
  | some q =>
    obtain ⟨m, hm, hb⟩ := h.below_of_step? hp hstep
    obtain ⟨m, rfl⟩ : ∃ k, m = k + 1 := ⟨m - 1, by omega⟩
    exact h.ne_of_below hl hb (congrArg Place.list heq)

/-- From an exponent the caret gets out, and directly behind the scripts, just from the end of it
and if there is no subscript. -/
theorem Sound.getD_step?_exponent_iff (h : f.Sound pending) (hl : f.Reachable l)
    (hget : (f.elements l)[i]? = some e)
    (hx : f.element e = .scripts (some half) subscript acceptor) {j : Nat} (hj : j ≤ f.length half)
    {next : Option Place} (hstep : f.step? ⟨half, j⟩ .right = .ok next) :
    next.getD ⟨half, j⟩ = ⟨l, i + 1⟩ ↔ subscript = none ∧ j = f.length half := by
  have hmem := List.mem_of_getElem? hget
  have hinside : ∀ k ∈ f.listsOf e, f.Below 1 l k := fun k hk => .inside (.here l) hmem hk
  have hhalf : half ∈ f.listsOf e := by simp [listsOf, hx, Element.lists]
  obtain hlt | rfl := Nat.lt_or_eq_of_le hj
  · -- There is an element to go into or past.
    refine iff_of_false (fun heq => ?_) fun hc => absurd hc.2 (by omega)
    rw [step?_right_of_getElem? (List.getElem?_eq_getElem hlt), Except.ok.injEq] at hstep
    subst hstep
    cases hlists : f.listsOf ((f.elements half)[j]) with
    | nil =>
      rw [hlists] at heq
      exact h.ne_of_below hl (hinside half hhalf) (congrArg Place.list heq)
    | cons inner rest =>
      have hinner : f.Below 2 l inner :=
        (hinside half hhalf).inside (List.getElem_mem hlt) (by simp [hlists])
      rw [hlists] at heq
      exact h.ne_of_below hl hinner (congrArg Place.list heq)
  · rw [show (⟨half, f.length half⟩ : Place) = f.endOf half from rfl, h.step?_exponent hget hx,
      Except.ok.injEq] at hstep
    subst hstep
    cases subscript with
    | none => simp
    | some k =>
      refine iff_of_false (fun heq => ?_) (by simp)
      exact h.ne_of_below hl (hinside k (by simp [listsOf, hx, Element.lists]))
        (congrArg Place.list heq)

theorem texts_drop {es : List ElementId} {k : Nat} (h : ∀ x ∈ es, f.isText x = true) :
    f.texts (es.drop k) = (f.texts es).drop k := by
  have hmap : (f.texts (es.drop k)).map some = ((f.texts es).drop k).map some := by
    rw [List.map_drop, ← row_of_text h, ← row_of_text fun x hx => h x (List.mem_of_mem_drop hx), row,
      row, List.map_drop]
  exact List.map_injective_iff.mpr (Option.some_injective _) hmap

/-- A symbol of a run that is no letter is there still once the run was read again. -/
theorem Reworded.exists_symbol {before run after es : List ElementId} {k : Nat} {x : ElementId}
    {c : Char} (h : f.Reworded g l before run after es k) (hrun : ∀ x ∈ run, f.isText x = true)
    (hx : x ∈ run) (hkind : f.kind x = .atom (String.singleton c)) (hhas : f.HasElement x)
    (hc : c.isAlpha = false)
    (hword : (Node.ofWord (String.singleton c)).kind = .atom (String.singleton c)) :
    ∃ x' ∈ run.take k ++ es, (x' = x ∨ ¬f.HasElement x') ∧
      g.kind x' = .atom (String.singleton c) := by
  rw [← List.take_append_drop k run, List.mem_append] at hx
  obtain hx | hx := hx
  · refine ⟨x, List.mem_append_left _ hx, .inl rfl, ?_⟩
    rw [kind, h.element x hhas]
    exact hkind
  · have htext : String.singleton c ∈ (f.texts run).drop k := by
      rw [← texts_drop hrun]
      exact List.mem_filterMap.mpr ⟨x, hx, by rw [hkind]; rfl⟩
    have hchar : c ∈ (String.join ((f.words run).drop k)).toList := by
      rw [h.join_drop, String.toList_join]
      exact List.mem_flatMap.mpr ⟨_, htext, by simp⟩
    rw [String.toList_join, List.mem_flatMap] at hchar
    obtain ⟨word, hmem, hchar⟩ := hchar
    -- No word of the table has a character that is no letter.
    obtain rfl : word = String.singleton c := by
      obtain hlisted | ⟨c', -, rfl⟩ := Symbol.mem_splitWords (List.mem_of_mem_drop hmem)
      · exact absurd (Symbol.isAlpha_of_mem_word hlisted c hchar) (by simp [hc])
      · rw [String.toList_singleton, List.mem_singleton] at hchar
        rw [hchar]
    obtain ⟨d, hd⟩ := h.spells
    have hnode : Node.ofWord (String.singleton c) ∈ es.map (g.spelled d) := by
      rw [hd d (Nat.le_refl d)]
      exact List.mem_map_of_mem hmem
    obtain ⟨x', hx', hspelled⟩ := List.mem_map.mp hnode
    refine ⟨x', List.mem_append_right _ hx', .inr (h.new x' hx'), ?_⟩
    rw [← hword, ← hspelled]
    exact Element.kind_toNode.symm

/-- A single leaf comes of the end of a run just if there is one word left and that holds no list.
-/
theorem Reworded.single_iff {before run after es : List ElementId} {k : Nat} {x : ElementId}
    (h : f.Reworded g l before run after (x :: es) k) :
    (∃ kept word, f.words run = kept ++ [word] ∧ kept <+: f.texts run ∧
        (Node.ofWord word).lists = []) ↔ es = [] ∧ g.listsOf x = [] := by
  obtain ⟨d, hd⟩ := h.spells
  have hspelled := hd d (Nat.le_refl d)
  have hlists : ∀ {word}, g.spelled d x = Node.ofWord word →
      ((Node.ofWord word).lists = [] ↔ g.listsOf x = []) := by
    intro word hword
    rw [← hword, spelled, Element.lists_toNode, List.map_eq_nil_iff, listsOf]
  constructor
  · rintro ⟨kept, word, hwords, hkept, hleaf⟩
    have hk : k = kept.length := by
      have hlt := h.lt_words
      rw [hwords, List.length_append, List.length_singleton] at hlt
      by_contra hne
      obtain ⟨rest, hrest⟩ := hkept
      refine h.differs ?_
      rw [hwords, ← hrest, List.getElem?_append_left (by omega),
        List.getElem?_append_left (by omega)]
    rw [hwords, hk, List.drop_left, List.map_cons, List.map_cons, List.map_nil,
      List.cons.injEq, List.map_eq_nil_iff] at hspelled
    exact ⟨hspelled.2, (hlists hspelled.1).mp hleaf⟩
  · rintro ⟨rfl, hleaf⟩
    obtain ⟨word, hword⟩ : ∃ word, (f.words run).drop k = [word] := by
      refine List.length_eq_one_iff.mp ?_
      rw [List.length_drop, ← h.length_new]
      rfl
    rw [hword, List.map_cons, List.map_cons, List.map_nil, List.map_nil,
      List.singleton_inj] at hspelled
    refine ⟨(f.words run).take k, word, ?_, ?_, (hlists hspelled).mpr hleaf⟩
    · rw [← hword, List.take_append_drop]
    · rw [h.kept]
      exact List.take_prefix k _

/-- The texts around a symbol that goes in between elements, and its own. -/
def textsAround (f : Formula) (text : String) (front behind : List ElementId) : List String :=
  f.texts (front.reverse.takeWhile f.isText).reverse ++
    text :: f.texts (behind.takeWhile f.isText)

end Formula

namespace Document

open Formula

variable {doc doc' : Document} {d e : ElementId} {text : String}

/-! ## A digit between what an exponent holds -/

/-- An element has gone in at the caret and the caret past it, and no words were read again yet. -/
structure Placed (doc doc' : Document) (e : ElementId) : Prop where
  resting : doc'.Resting
  formula : doc'.formula = (doc.formula.replaceRange doc.caret.place.list doc.caret.place.pos
    doc.caret.place.pos [e]).1
  place : doc'.caret.place = ⟨doc.caret.place.list, doc.caret.place.pos + 1⟩
  converts : doc'.convertsWords = doc.convertsWords

/-- An element is put in first, then words are read again, and then the caret goes into the
element. -/
theorem Resting.place_eq (h : doc.Resting) (he : doc.formula.Ready [e]) :
    ∃ put, doc.Placed put e ∧ doc.place e =
      (if doc.convertsWords then put.convertWords doc.caret.place.list else .ok put).bind fun read =>
        match (read.formula.element e).acceptor? with
        | some acceptor => .ok (read.moveCaret (read.formula.endOf acceptor))
        | none => .ok read := by
  have hf := h.formula
  have hp := h.caret.place
  refine ⟨_, ⟨h.edit (hf.replaceRange (hp.hasList hf) (Nat.le_refl _) he)
    (hf.isPlace_replaceRange hp.reachable (Nat.le_refl _) hp.le_length [e] (Nat.le_refl _)),
    rfl, rfl, rfl⟩, ?_⟩
  have hconverts : ∀ (f : Formula) (q : Place),
      ({ doc with formula := f }.moveCaret q).convertsWords = doc.convertsWords := fun _ _ => rfl
  unfold Document.place
  simp only [he.parent e (List.mem_singleton_self e), Option.isSome_none, Bool.false_eq_true,
    ↓reduceIte, splice_eq (Nat.le_refl _) hp.le_length, List.length_singleton, ok_bind, hconverts]
  by_cases hwords : doc.convertsWords = true
  · simp only [hwords, ↓reduceIte]
    rfl
  · simp only [hwords, ↓reduceIte, Bool.false_eq_true]
    rfl

theorem Placed.element (h : doc.Placed doc' e) (x : ElementId) :
    doc'.formula.element x = doc.formula.element x := by
  rw [h.formula, element_replaceRange]

/-- A symbol has gone in at the caret, and the caret past it. -/
structure Types (doc doc' : Document) (d : ElementId) (text : String) : Prop where
  resting : doc'.Resting
  replaces : doc.formula.Replaces doc'.formula
    ⟨doc.caret.place.list, doc.caret.place.pos, doc.caret.place.pos⟩ [d]
  kind : doc'.formula.kind d = .atom text
  place : doc'.caret.place = ⟨doc.caret.place.list, doc.caret.place.pos + 1⟩
  keeps : doc.formula.Keeps doc'.formula
  converts : doc'.convertsWords = doc.convertsWords

/-- A symbol is typed first, and then words are read again. -/
theorem Resting.insertNode_atom (h : doc.Resting) (htext : Text.unitalicize text = text)
    (dir : Direction) : ∃ doc' d, doc.Types doc' d text ∧
      doc.insertNode (.atom text) dir =
        if doc.convertsWords then doc'.convertWords doc.caret.place.list else .ok doc' := by
  have hf := h.formula
  have hplace := h.caret.place
  have hfilled : Node.EveryNode Node.Filled [.atom text] :=
    Node.everyNode_filled trivial (by simp [Node.lists])
  obtain ⟨hg, hgrows, hready⟩ := hf.plant hfilled
  have hp := planted.1 (.atom text) doc.formula [] hf.toSound (by simp)
  obtain ⟨ls, -, helement⟩ := element_plant hf.toSound (.atom text)
  have hl := hplace.hasList hf
  generalize hplant : doc.formula.plant (.atom text) = planted at *
  obtain ⟨g, d⟩ := planted
  have hrest : Resting { doc with formula := g } := ⟨h.toValid.grows hg hgrows, h.selecting⟩
  obtain ⟨doc', hput, hplaced⟩ := hrest.place_eq hready
  have hatom : doc'.formula.element d = .atom (Text.italicize text) :=
    (hput.element d).trans helement
  have hd : doc'.formula.HasElement d := by
    refine hput.resting.formula.hasElement (l := doc.caret.place.list) ?_
    rw [hput.formula]
    exact mem_replaceRange (hgrows.hasList hl) _ _ (List.mem_singleton_self d)
  have hreplaces : doc.formula.Replaces doc'.formula
      ⟨doc.caret.place.list, doc.caret.place.pos, doc.caret.place.pos⟩ [d] := by
    rw [hput.formula]
    exact (Replaces.refl (s := ⟨doc.caret.place.list, doc.caret.place.pos, _⟩) rfl).insert hgrows hl
      hplace.le_length hp.fresh
  refine ⟨doc', d, ⟨hput.resting, hreplaces, ?_, hput.place, ?_, hput.converts⟩, ?_⟩
  · rw [kind, hatom, Element.kind, Text.unitalicize_italicize, htext]
  · rw [hput.formula]
    exact hgrows.keeps.trans (keeps_insert (hgrows.hasList hl))
  · -- The symbol holds no list for the caret to go into.
    simp only [insertNode, Document.plant, hplant]
    rw [h.insert_eq, hplaced]
    cases doc.convertsWords with
    | false => simp [hatom, Element.acceptor?, Except.bind]
    | true =>
      obtain ⟨doc'', hconvert, -, -, hsame⟩ :=
        hput.resting.convertWords (congrArg Place.list hput.place)
      have hleaf : (doc''.formula.element d).acceptor? = none := by
        rw [hsame d hd, hatom]
        rfl
      simp only at hconvert
      simp only [↓reduceIte, hconvert, Except.bind, hleaf]

/-- The caret stands in the exponent of scripts, between what that holds. -/
structure InExponent (doc : Document) (l : ListId) (i : Nat) (e : ElementId) (half : ListId)
    (subscript : Option ListId) (front behind : List ElementId) : Prop where
  resting : doc.Resting
  reachable : doc.formula.Reachable l
  scripts : (doc.formula.elements l)[i]? = some e
  element : doc.formula.element e = .scripts (some half) subscript (some half)
  holds : doc.formula.elements half = front ++ behind
  place : doc.caret.place = ⟨half, front.length⟩

/-- A symbol typed between what an exponent holds ends up at the end of it, or what it has become a
part of does, with the caret behind: either nothing stands behind it and the text around it stays,
or that text reaches to the end and turns into a single leaf there. -/
def EndsExponent (doc : Document) (text : String) (front behind : List ElementId) : Prop :=
  let texts := doc.formula.textsAround text front behind
  let words := Symbol.splitWords (String.join texts)
  (doc.convertsWords = true → words <+: texts) ∧ behind = [] ∨
    doc.convertsWords = true ∧ ¬words <+: texts ∧ (∀ x ∈ behind, doc.formula.isText x = true) ∧
      ∃ kept word, words = kept ++ [word] ∧ kept <+: texts ∧ (Node.ofWord word).lists = []

/-- The run of text around a symbol that was typed. -/
theorem Types.exists_runAt (ht : doc.Types doc' d text) (hf : doc.formula.Linked [])
    {front behind : List ElementId}
    (hlist : doc.formula.elements doc.caret.place.list = front ++ behind)
    (hpos : doc.caret.place.pos = front.length) : ∃ before left right after,
      front = before ++ left ∧ behind = right ++ after ∧
      doc'.formula.RunAt doc'.caret.place before (left ++ d :: right) after ∧
      doc'.formula.texts (left ++ d :: right) = doc.formula.textsAround text front behind ∧
      (after = [] ↔ ∀ x ∈ behind, doc.formula.isText x = true) := by
  have hkind : ∀ x ∈ front ++ behind, doc'.formula.kind x = doc.formula.kind x := fun x hx =>
    congrArg Element.kind (ht.replaces.element x (hf.hasElement (hlist ▸ hx)))
  have htext : ∀ x ∈ front ++ behind, doc'.formula.isText x = doc.formula.isText x := fun x hx => by
    rw [isText, isText, hkind x hx]
  obtain ⟨left, before, hfront, hleft, hfirst⟩ := doc.formula.exists_text_append front.reverse
  obtain ⟨right, after, hbehind, hright, hlast⟩ := doc.formula.exists_text_append behind
  have hfront' : front = before.reverse ++ left.reverse := by
    rw [← List.reverse_append, ← hfront, List.reverse_reverse]
  have htexts : ∀ es : List ElementId, es ⊆ front ++ behind →
      doc'.formula.texts es = doc.formula.texts es := fun es hes =>
    List.filterMap_congr fun x hx => by rw [hkind x (hes hx)]
  have hplace : doc'.caret.place.pos = before.reverse.length + left.reverse.length + 1 := by
    rw [ht.place, ← List.length_append, ← hfront', ← hpos]
  refine ⟨before.reverse, left.reverse, right, after, hfront', hbehind, ?_, ?_, ?_⟩
  · refine ⟨?_, ?_, ?_, ?_, ?_, ?_⟩
    · rw [ht.place, ht.replaces.list, replaced, hlist, hpos, List.take_left, List.drop_left, hfront',
        hbehind]
      simp
    · omega
    · rw [List.length_append, List.length_cons]
      omega
    · intro x hx
      rw [List.mem_append, List.mem_cons] at hx
      obtain hx | rfl | hx := hx
      · rw [htext x (by simp [hfront', hx])]
        exact hleft x (List.mem_reverse.mp hx)
      · rw [isText, ht.kind]
        rfl
      · rw [htext x (by simp [hbehind, hx])]
        exact hright x hx
    · intro x hx
      rw [List.getLast?_reverse] at hx
      rw [htext x (by simp [hfront', List.mem_of_head? hx])]
      exact hfirst x hx
    · intro x hx
      rw [htext x (by simp [hbehind, List.mem_of_head? hx])]
      exact hlast x hx
  · have hd : doc'.formula.texts (d :: right) = text :: doc'.formula.texts right :=
      List.filterMap_cons_some (by rw [ht.kind]; rfl)
    rw [textsAround, hfront, hbehind, takeWhile_isText hleft hfirst, takeWhile_isText hright hlast,
      ← htexts left.reverse (by simp [hfront']), ← htexts right (by simp [hbehind]), ← hd]
    exact List.filterMap_append
  · rw [hbehind]
    exact eq_nil_iff_isText hright hlast

/-- The exponent holds a new symbol, and the scripts are still where they were. One step on from the
caret is the place directly behind the scripts just if there is no subscript and the symbol ends the
exponent. -/
structure TypesInto (doc doc' : Document) (l : ListId) (i : Nat) (e : ElementId) (half : ListId)
    (subscript : Option ListId) (front behind : List ElementId) (text : String) : Prop where
  scripts : (doc'.formula.elements l)[i]? = some e
  element : doc'.formula.element e = .scripts (some half) subscript (some half)
  symbol : ∃ d ∈ doc'.formula.elements half, ¬doc.formula.HasElement d ∧
    doc'.formula.kind d = .atom text
  step : ∀ next, doc'.formula.step? doc'.caret.place .right = .ok next →
    (next.getD doc'.caret.place = ⟨l, i + 1⟩ ↔
      subscript = none ∧ doc.EndsExponent text front behind)

section Typing

variable {l half : ListId} {i : Nat} {subscript : Option ListId} {front behind : List ElementId}
  (h : doc.InExponent l i e half subscript front behind) (ht : doc.Types doc' d text)

include h

theorem InExponent.below : doc.formula.Below 1 l half :=
  .inside (.here l) (List.mem_of_getElem? h.scripts) (by simp [listsOf, h.element, Element.lists])

theorem InExponent.ne : half ≠ l :=
  h.resting.formula.toSound.ne_of_below h.reachable h.below

include ht

theorem Types.scripts : (doc'.formula.elements l)[i]? = some e := by
  have hl := h.resting.formula.hasList_of_reachable h.reachable
  rw [ht.replaces.elements l hl (by rw [h.place]; exact h.ne.symm)]
  exact h.scripts

theorem Types.element : doc'.formula.element e = .scripts (some half) subscript (some half) := by
  rw [ht.replaces.element e (h.resting.formula.hasElement (List.mem_of_getElem? h.scripts))]
  exact h.element

theorem Types.holds : doc'.formula.elements half = front ++ d :: behind := by
  have hlist := ht.replaces.list
  rw [h.place] at hlist
  rw [hlist, replaced, h.holds, List.take_left, List.drop_left]
  simp

/-- Where the text stays, the caret is behind the symbol. -/
theorem InExponent.typesInto_of_settled (hsettled : doc.convertsWords = true →
      Symbol.splitWords (String.join (doc.formula.textsAround text front behind)) <+:
        doc.formula.textsAround text front behind) :
    doc.TypesInto doc' l i e half subscript front behind text where
  scripts := ht.scripts h
  element := ht.element h
  symbol := ⟨d, by rw [ht.holds h]; simp, ht.replaces.new d (List.mem_singleton_self d), ht.kind⟩
  step next hnext := by
    have hlength : doc'.formula.length half = front.length + 1 + behind.length := by
      rw [length, ht.holds h, List.length_append, List.length_cons]
      omega
    have hends : doc.EndsExponent text front behind ↔ behind = [] := by
      refine ⟨fun hends => ?_, fun hbehind => .inl ⟨hsettled, hbehind⟩⟩
      obtain ⟨-, hbehind⟩ | ⟨hconverts, hnot, -⟩ := hends
      · exact hbehind
      · exact absurd (hsettled hconverts) hnot
    rw [ht.place, h.place] at hnext ⊢
    rw [ht.resting.formula.toSound.getD_step?_exponent_iff (ht.keeps.reachable h.reachable)
      (ht.scripts h) (ht.element h) (show front.length + 1 ≤ _ by omega) hnext, hends, hlength,
      ← List.length_eq_zero_iff]
    simp

omit h ht in
/-- Where the text does not stay, a symbol ends an exponent just if nothing but a single leaf is new
and nothing follows it. -/
theorem endsExponent_iff_of_reworded (hconverts : doc.convertsWords = true)
    {before left right after es : List ElementId} {x : ElementId} {k : Nat} {g : Formula}
    (htexts : doc'.formula.texts (left ++ d :: right) = doc.formula.textsAround text front behind)
    (hafter : after = [] ↔ ∀ x ∈ behind, doc.formula.isText x = true)
    (hre : doc'.formula.Reworded g half before (left ++ d :: right) after (x :: es) k) :
    doc.EndsExponent text front behind ↔ (es = [] ∧ g.listsOf x = []) ∧ after = [] := by
  have hwords : doc'.formula.words (left ++ d :: right) =
      Symbol.splitWords (String.join (doc.formula.textsAround text front behind)) := by
    rw [words, htexts]
  have hnot : ¬doc'.formula.words (left ++ d :: right) <+:
      doc'.formula.texts (left ++ d :: right) := by
    rintro ⟨rest, hrest⟩
    exact hre.differs (by rw [← hrest, List.getElem?_append_left hre.lt_words])
  rw [EndsExponent, ← hwords, ← htexts, ← hre.single_iff, hafter]
  simp only [hconverts, hnot, true_imp_iff, false_and, not_false_eq_true, true_and, false_or]
  exact and_comm

/-- Where the text does not stay, the caret is inside or behind the first element that is new. -/
theorem InExponent.typesInto_of_reworded {c : Char} (htext : text = String.singleton c)
    (hc : c.isAlpha = false) (hword : (Node.ofWord text).kind = .atom text)
    (hconverts : doc.convertsWords = true) {before left right after es : List ElementId}
    {x : ElementId} {k : Nat} {g : Formula} {caret : Caret}
    (hrun : doc'.formula.RunAt doc'.caret.place before (left ++ d :: right) after)
    (htexts : doc'.formula.texts (left ++ d :: right) = doc.formula.textsAround text front behind)
    (hafter : after = [] ↔ ∀ x ∈ behind, doc.formula.isText x = true)
    (hre : doc'.formula.Reworded g half before (left ++ d :: right) after (x :: es) k)
    (hcaret : (∃ entry ∈ g.listsOf x, caret.place = startOf entry) ∨
      g.listsOf x = [] ∧ caret.place = ⟨half, before.length + k + 1⟩) :
    doc.TypesInto { doc' with formula := g, caret } l i e half subscript front behind text := by
  have hf := ht.resting.formula
  have hl := ht.keeps.reachable h.reachable
  have hhas : doc'.formula.HasElement d :=
    hf.hasElement (l := half) (by rw [ht.holds h]; simp)
  have hscripts : (g.elements l)[i]? = some e := by
    rw [hre.elements l (hf.hasList_of_reachable hl) h.ne.symm]
    exact ht.scripts h
  have helement : g.element e = .scripts (some half) subscript (some half) := by
    rw [hre.element e (hf.hasElement (List.mem_of_getElem? (ht.scripts h)))]
    exact ht.element h
  have hreach := hre.keeps.reachable hl
  have hbelow : g.Below 1 l half := .inside (.here l) (List.mem_of_getElem? hscripts)
    (by simp [listsOf, helement, Element.lists])
  have hends := endsExponent_iff_of_reworded hconverts htexts hafter hre
  exact {
    scripts := hscripts
    element := helement
    symbol := by
      subst htext
      obtain ⟨d', hd', hnew, hkind⟩ := hre.exists_symbol hrun.text (by simp) ht.kind hhas hc hword
      refine ⟨d', ?_, ?_, hkind⟩
      · change d' ∈ g.elements half
        rw [hre.left, ← List.append_assoc (List.take _ _)]
        simp only [List.mem_append] at hd' ⊢
        exact .inr (.inl hd')
      · obtain rfl | hnew := hnew
        · exact ht.replaces.new d' (List.mem_singleton_self d')
        · exact fun hc => hnew (ht.replaces.hasElement d' hc)
    step := fun next hnext => by
      obtain ⟨entry, hentry, hplace⟩ | ⟨hleaf, hplace⟩ := hcaret
      · -- The caret is inside the new element.
        have hinner : g.Below 2 l caret.place.list := by
          rw [hplace]
          exact hbelow.inside (hre.mem_elements List.mem_cons_self) hentry
        refine iff_of_false (hre.tidy.toSound.getD_step?_ne (n := 0) hreach hinner hnext) ?_
        rw [hends]
        rintro ⟨-, ⟨-, hleaf⟩, -⟩
        simp [hleaf] at hentry
      · have hlength : g.length half = before.length + k + (1 + es.length) + after.length := by
          rw [length, hre.left, List.length_append, List.length_append, List.length_append,
            List.length_take_of_le hre.lt_run.le, List.length_cons]
          omega
        simp only [hplace] at hnext ⊢
        rw [hre.tidy.toSound.getD_step?_exponent_iff hreach hscripts helement
          (show before.length + k + 1 ≤ _ by omega) hnext, hends, hlength]
        simp only [hleaf, and_true, ← List.length_eq_zero_iff]
        refine and_congr_right fun _ => ?_
        omega }

end Typing

/-- A symbol that is no letter goes into the exponent, and one step on the caret is directly behind
the scripts just if there is no subscript and the symbol ends the exponent. -/
theorem InExponent.typeSymbol {l half : ListId} {i : Nat} {subscript : Option ListId}
    {front behind : List ElementId} {c : Char}
    (h : doc.InExponent l i e half subscript front behind) (hplain : Text.plain c = c)
    (hc : c.isAlpha = false)
    (hword : (Node.ofWord (String.singleton c)).kind = .atom (String.singleton c)) :
    Succeeds (doc.insertNode (.atom (String.singleton c)) .left) fun doc' =>
      doc.TypesInto doc' l i e half subscript front behind (String.singleton c) := by
  have htext : Text.unitalicize (String.singleton c) = String.singleton c := by
    rw [Text.unitalicize_singleton, hplain]
  obtain ⟨doc₂, d, ht, hinsert⟩ := h.resting.insertNode_atom htext .left
  rw [hinsert]
  cases hconverts : doc.convertsWords with
  | false =>
    rw [if_neg (by simp)]
    exact .ok (h.typesInto_of_settled ht (by simp [hconverts]))
  | true =>
    rw [if_pos rfl]
    obtain ⟨before, left, right, after, rfl, rfl, hrun, htexts, hafter⟩ :=
      ht.exists_runAt h.resting.formula.toLinked (by rw [h.place]; exact h.holds) (by rw [h.place])
    have hplace : doc₂.caret.place.list = doc.caret.place.list := by rw [ht.place]
    obtain ⟨doc₃, hconvert, hreread⟩ :=
      convertWords_reread ht.resting.formula ht.resting.caret.place hrun
    rw [hplace] at hconvert
    refine ⟨doc₃, hconvert, ?_⟩
    rw [h.place] at hplace
    have hnew : ∀ {g es k x caret}, doc₂.formula.Reworded g doc₂.caret.place.list before
          (left ++ d :: right) after es k → es.head? = some x →
        ((∃ entry ∈ g.listsOf x, caret.place = startOf entry) ∨
          g.listsOf x = [] ∧ caret.place = ⟨half, before.length + k + 1⟩) →
        doc.TypesInto { doc₂ with formula := g, caret } l i e half subscript (before ++ left)
          (right ++ after) (String.singleton c) := by
      intro g es k x caret hre hhead hcaret
      obtain ⟨rest, rfl⟩ := List.head?_eq_some_iff.mp hhead
      rw [hplace] at hre
      exact h.typesInto_of_reworded ht rfl hc hword hconverts hrun htexts hafter hre hcaret
    cases hreread with
    | settled hsettled =>
      refine h.typesInto_of_settled ht fun _ => ?_
      rwa [words, htexts] at hsettled
    | opened hre hhead hopening =>
      exact hnew hre hhead (.inl ⟨_, Element.mem_lists_of_opening? hopening, rfl⟩)
    | @passed g es k x q hre hhead hopening hstep =>
      refine hnew hre hhead ?_
      obtain ⟨rest, rfl⟩ := List.head?_eq_some_iff.mp hhead
      rw [step?_right_of_getElem? hre.getElem?_first, Except.ok.injEq, Option.some.injEq,
        hplace] at hstep
      subst hstep
      cases hlists : g.listsOf x with
      | nil => exact .inr ⟨rfl, by simp [Caret.moveTo]⟩
      | cons inner rest => exact .inl ⟨inner, List.mem_cons_self, by simp [Caret.moveTo]⟩

end Document

end FormulaEditor
