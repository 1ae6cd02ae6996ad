import FormulaEditor.Proofs.Document.Figures
import FormulaEditor.Proofs.Expression.Literal
import FormulaEditor.Proofs.Row.Slider
import FormulaEditor.Proofs.Session.Legible

/-!
# Dragging a slider

Setting a slider writes a value behind the first equals sign of the root, in place of what stood
there. What stands in front stays as it is, so a formula that assigned something to a name assigns
the value to that name, and a plot shows it as a slider with that value.
-/

namespace FormulaEditor

namespace Formula

variable {f : Formula} {before after : List Node} {pending : List ElementId}

/-- What the formula reads as up to a node, it reads off the elements up to the one of the node. -/
theorem Sound.exists_split {n : Node} (hf : f.Sound pending) (h : f.nodes = before ++ n :: after) :
    ∃ es q rest, f.elements f.root = es ++ q :: rest ∧ es.map f.snapshot = before ∧
      f.snapshot q = n := by
  rw [hf.nodes_eq] at h
  obtain ⟨es, tail, helements, hbefore, htail⟩ := List.map_eq_append_iff.mp h
  obtain ⟨q, rest, rfl, hq, -⟩ := List.map_eq_cons_iff.mp htail
  exact ⟨es, q, rest, helements, hbefore, hq⟩

end Formula

namespace Session

variable {s s' : Session} {before after : List Node} {cs : List Char} {text : String}
  {value : Float}

/-! ## The nodes of a value -/

theorem isFigure_numeralNodes (h : Decimal.IsPlain cs) : ∀ n ∈ numeralNodes cs, n.IsFigure := by
  have hchars : ∀ {cs}, Decimal.IsUnsigned cs → ∀ n ∈ cs.map Node.ofChar, n.IsFigure := by
    intro cs hcs n hn
    obtain ⟨c, hc, rfl⟩ := List.mem_map.mp hn
    exact .inr ⟨c, hcs.isDigit_or_point c hc, rfl⟩
  cases h with
  | positive h =>
    rw [h.numeralNodes_eq]
    exact hchars h
  | negative h => exact List.forall_mem_cons.mpr ⟨.inl rfl, hchars h⟩

/-- A plain numeral is written as it reads, no character being left out. -/
theorem sliderNodes_eq (h : Decimal.IsPlain text.toList) :
    sliderNodes text = numeralNodes text.toList := by
  have hchars : ∀ {cs}, Decimal.IsUnsigned cs → cs.filterMap (fun c =>
      if c == '-' then some (.binary .minus)
      else if c.isDigit || c == '.' then some (.ofChar c) else none) = cs.map Node.ofChar := by
    intro cs hcs
    rw [← List.filterMap_eq_map]
    refine List.filterMap_congr fun c hc => ?_
    have hfigure : (c.isDigit || c == '.') = true := by simpa using hcs.isDigit_or_point c hc
    have hminus : (c == '-') = false := by
      refine beq_eq_false_iff_ne.mpr ?_
      rintro rfl
      simp at hfigure
    simp [hminus, hfigure]
  unfold sliderNodes
  generalize text.toList = cs at h
  cases h with
  | positive h => rw [h.numeralNodes_eq, hchars h]
  | negative h => exact congrArg (Node.binary .minus :: ·) (hchars h)

/-! ## The edit -/

/-- A text is written behind the equals sign: this sign and what is in front of it are the elements
they were, behind it stand the nodes of the text, and the caret is at the end of the root, with
nothing selected. -/
structure Rewritten (s : Session) (before : List Node) (text : String) (s' : Session) : Prop where
  options : s'.options = s.options
  retains : s.document.formula.RetainsBelow s'.document.formula
  kept : (s'.document.formula.elements s'.document.formula.root).take (before.length + 1) =
    (s.document.formula.elements s.document.formula.root).take (before.length + 1)
  nodes : s'.document.formula.nodes = before ++ .binary .equals :: numeralNodes text.toList
  caret : s'.document.caret = .ofPlace (s'.document.formula.endOf s'.document.formula.root)

theorem take_length_succ {α : Type} (as : List α) (a : α) (rest : List α) :
    (as ++ a :: rest).take (as.length + 1) = as ++ [a] := by
  rw [List.take_length_add_append, List.take_succ_cons, List.take_zero]

/-- Without what stands behind an element of the root, there are no figures behind it yet. -/
theorem figures_dropBehind {doc : Document} {es rest : List ElementId} {q : ElementId}
    (h : doc.Valid) (hl : doc.formula.elements doc.formula.root = es ++ q :: rest) :
    Succeeds (doc.cancelSelection.splice doc.formula.root (es.length + 1)
      (doc.formula.length doc.formula.root) []) fun x =>
        (x.1.moveCaret (x.1.formula.endOf doc.formula.root)).Figures doc.formula es q [] := by
  have hle : es.length + 1 ≤ doc.formula.length doc.formula.root := by
    rw [Formula.length, hl, List.length_append, List.length_cons]
    omega
  have hlist := h.formula.root_hasList
  have hsplice : doc.cancelSelection.splice _ _ _ [] = _ :=
    Document.splice_eq hle (Nat.le_refl (doc.formula.length doc.formula.root))
  have hrest := (resting_dropAfter h hle).of_eq_ok hsplice
  refine ⟨_, hsplice, hrest, Formula.retainsBelow_replaceRange hlist, rfl, [], ?_, rfl⟩
  show (doc.formula.replaceRange _ _ _ []).1.elements doc.formula.root = es ++ [q]
  rw [Formula.elements_replaceRange hlist, if_pos rfl, Formula.replaced, Formula.length, hl,
    take_length_succ, List.drop_length, List.append_nil, List.append_nil]

/-- The first equals sign among the elements of the root. -/
theorem findIdx?_equals {f : Formula} {es rest : List ElementId} {q : ElementId}
    (hq : f.snapshot q = .binary .equals) (hes : .binary .equals ∉ es.map f.snapshot) :
    (es ++ q :: rest).findIdx? (fun e => f.kind e = .binary .equals) = some es.length := by
  have hkind : f.kind q = .binary .equals := Formula.snapshot_eq_binary.mp hq
  have hnone : es.findIdx? (fun e => f.kind e = .binary .equals) = none := by
    rw [List.findIdx?_eq_none_iff]
    intro e he
    refine decide_eq_false fun hc => hes ?_
    exact List.mem_map.mpr ⟨e, he, Formula.snapshot_eq_binary.mpr hc⟩
  rw [List.findIdx?_append, hnone, List.findIdx?_cons]
  simp [hkind]

/-- Without an equals sign in the root, nothing is written. -/
theorem setSlider_of_not_mem (h : s.document.Valid)
    (hequals : .binary .equals ∉ s.document.formula.nodes) :
    s.setSlider value = .ok (s, false) := by
  have hnone : (s.document.formula.elements s.document.formula.root).findIdx?
      (fun e => s.document.formula.kind e = .binary .equals) = none := by
    rw [List.findIdx?_eq_none_iff]
    intro e he
    refine decide_eq_false fun hc => hequals ?_
    rw [h.formula.toSound.nodes_eq]
    exact List.mem_map.mpr ⟨e, he, Formula.snapshot_eq_binary.mpr hc⟩
  unfold setSlider
  simp only [hnone, ite_self]

/-- A finite value is written behind the first equals sign of the root. -/
theorem setSlider_rewritten (h : s.document.Valid) (hfinite : value.isFinite = true)
    (hnodes : s.document.formula.nodes = before ++ .binary .equals :: after)
    (hfirst : .binary .equals ∉ before)
    (hplain : Decimal.IsPlain (Decimal.display (sliderValue value)).toList) :
    ∃ s', s.setSlider value = .ok (s', true) ∧
      s.Rewritten before (Decimal.display (sliderValue value)) s' := by
  have hf := h.formula
  obtain ⟨es, q, rest, hl, rfl, hq⟩ := hf.toSound.exists_split hnodes
  have hmem : s.document.formula.HasElement q := by
    refine hf.hasElement (l := s.document.formula.root) ?_
    rw [hl]
    exact List.mem_append_right _ List.mem_cons_self
  have hnot : s.document.formula.isText q = false := by
    rw [Formula.isText, Formula.snapshot_eq_binary.mp hq]
    rfl
  have hfigures := isFigure_numeralNodes hplain
  obtain ⟨x, hx, hbegun⟩ := figures_dropBehind h hl
  obtain ⟨doc', hdoc', hdone⟩ := hbegun.insertNodes hmem hnot (by simp) hfigures
  rw [List.nil_append] at hdone
  refine ⟨{ s with document := doc' }, ?_, rfl, hdone.retains, ?_, ?_, hdone.caret_eq⟩
  · unfold setSlider
    simp only [hfinite, Bool.not_true, Bool.false_eq_true, ↓reduceIte, hl,
      findIdx?_equals hq hfirst, hx, bind, Except.bind, sliderNodes_eq hplain, hdoc']
  · obtain ⟨ws, hws, -⟩ := hdone.written
    show (doc'.formula.elements doc'.formula.root).take _ = _
    rw [hdone.retains.root, hws, hl, List.length_map, take_length_succ, take_length_succ]
  · show doc'.formula.nodes = _
    rw [hdone.nodes_eq hf hl hfigures, hq]

/-! ## The row -/

/-- An exclamation mark is no name. -/
theorem ne_bang_of_isName (hname : Row.IsName (Node.symbolText text).toList) :
    Text.unitalicize text ≠ "!" := by
  intro hbang
  have htext : (Node.symbolText text).toList = ['!'] := by
    rw [Node.symbolText, hbang]
    rfl
  obtain ⟨c, cs, hcs, hfirst, -⟩ := hname
  rw [htext] at hcs
  obtain ⟨rfl, -⟩ := List.cons.inj hcs
  revert hfirst
  decide

/-- Behind a single symbol, the formula compiles to name, sign and numeral, the numeral's integers
written as floats. -/
theorem Rewritten.compile_eq {c : Char} (h : s.Rewritten [.ofChar c] text s')
    (hplain : Decimal.IsPlain text.toList)
    (hname : Row.IsName (Node.symbolText (String.singleton c)).toList) (counter : Nat) :
    (s'.compile ⟨.standard, counter⟩).1 =
      ⟨"", String.ofList ((Node.symbolText (String.singleton c)).toList ++ '=' ::
        Text.promoteFrom (.outside false) text.toList)⟩ := by
  have hcompile := Node.compile_assignment (o := .standard) (ne_bang_of_isName hname) hplain counter
  rw [String.ofList_toList] at hcompile
  have hraw : (s'.compile ⟨.standard, counter⟩).1 = (Expression.pure
      (Node.symbolText (String.singleton c) ++ "=" ++ text)).written .standard := by
    rw [← hcompile]
    show (Node.compile .standard s'.document.formula.nodes counter).1 = _
    rw [h.nodes]
    rfl
  have hsplit := Text.promoteIntegers_separator (s := "=") (by decide +kernel)
    (Node.symbolText (String.singleton c)) text
  have hsame : Text.promoteIntegers (Node.symbolText (String.singleton c)) =
      Node.symbolText (String.singleton c) :=
    Node.promoteIntegers_symbolText hname.isDigit_head
  have hempty : Text.promoteIntegers "" = "" := rfl
  have hwritten : ∀ e, Expression.written .standard e = e.promoteIntegers := fun _ => rfl
  rw [hraw, hwritten, Expression.promoteIntegers, Expression.pure, hempty, hsplit, hsame]
  refine congrArg (Expression.mk "") (String.toList_injective ?_)
  simp [Text.promoteIntegers]

/-- The numeral is read back as the value of a slider by the name of the symbol. -/
theorem Rewritten.classify {c : Char} (h : s.Rewritten [.ofChar c] text s')
    (hplain : Decimal.IsPlain text.toList)
    (hname : Row.IsName (Node.symbolText (String.singleton c)).toList)
    (haxis : ∀ axis : Axis, Node.symbolText (String.singleton c) ≠ axis.name) (counter : Nat) :
    ∃ x, Decimal.read? text = some x ∧
      Row.classify (s'.compile ⟨.standard, counter⟩).1 =
        .slider (Node.symbolText (String.singleton c)) x := by
  obtain ⟨x, hx⟩ := hplain.exists_read?
  obtain ⟨hfloat, hread⟩ := hplain.promoteFrom
  rw [String.ofList_toList] at hx
  have haxis' : ∀ axis : Axis,
      (Node.symbolText (String.singleton c)).toList ≠ axis.name.toList :=
    fun axis hc => haxis axis (String.toList_injective hc)
  refine ⟨x, hx, ?_⟩
  rw [h.compile_eq hplain hname, Row.classify_slider hname haxis' hfloat
    (by rw [hread, String.ofList_toList, hx]), String.ofList_toList]

/-! ## From every reachable session -/

/-- A single symbol in front of the equals sign is a single character. -/
theorem Reached.exists_ofChar (h : s.Reached)
    (hnodes : s.document.formula.nodes = .atom text :: after) :
    ∃ c, Node.atom text = .ofChar c ∧ text = String.singleton c := by
  have hlegible := h.legible.everyNode h.valid.formula
  rw [hnodes, Node.everyNode_cons] at hlegible
  obtain ⟨c, rfl, -⟩ := hlegible.1.1.1
  exact ⟨c, rfl, rfl⟩

/-- Dragging a slider does nothing if the value is not finite or the root has no equals sign.
Otherwise the rounded value is written behind the first equals sign, and what is in front of it
stays. If this is a single symbol whose name is an identifier other than the name of an axis, the
formula is a slider of this name with the value. -/
theorem Reached.setSlider_assigns (h : s.Reached) (value : Float) :
    (value.isFinite = false ∨ .binary .equals ∉ s.document.formula.nodes →
      s.setSlider value = .ok (s, false)) ∧
    ∀ before after, value.isFinite = true →
      s.document.formula.nodes = before ++ .binary .equals :: after →
      .binary .equals ∉ before →
      Decimal.IsPlain (Decimal.display (sliderValue value)).toList →
      ∃ s', s.setSlider value = .ok (s', true) ∧
        s.Rewritten before (Decimal.display (sliderValue value)) s' ∧
        ∀ text counter, before = [.atom text] → Row.IsName (Node.symbolText text).toList →
          (∀ axis : Axis, Node.symbolText text ≠ axis.name) →
          ∃ x, Decimal.read? (Decimal.display (sliderValue value)) = some x ∧
            Row.classify (s'.compile ⟨.standard, counter⟩).1 =
              .slider (Node.symbolText text) x := by
  refine ⟨?_, ?_⟩
  · rintro (hfinite | hequals)
    · unfold setSlider
      simp [hfinite]
    · exact setSlider_of_not_mem h.valid hequals
  · intro before after hfinite hnodes hfirst hplain
    obtain ⟨s', hs', hrewritten⟩ := setSlider_rewritten h.valid hfinite hnodes hfirst hplain
    refine ⟨s', hs', hrewritten, ?_⟩
    intro text counter hbefore hname haxis
    subst hbefore
    obtain ⟨c, hc, rfl⟩ := h.exists_ofChar hnodes
    rw [hc] at hrewritten
    exact hrewritten.classify hplain hname haxis counter

/-- A slider is dragged to a negative value, and an empty formula has none to drag. -/
theorem slider_dragged_below_zero :
    (new .standard).setSlider 1 = .ok (new .standard, false) ∧
    ∃ s s', ofTex "a=1" .standard = .ok s ∧ s.setSlider (-2e12) = .ok (s', true) ∧
      s'.document.formula.nodes = [.ofChar 'a', .binary .equals, .binary .minus, .ofChar '2'] ++
        List.replicate 12 (.ofChar '0') ∧
      Row.classify (s'.compile ⟨.standard, 0⟩).1 = .slider "a" (-2e12) := by
  have hempty : Node.binary .equals ∉ (new .standard).document.formula.nodes := List.not_mem_nil
  refine ⟨(Reached.setSlider_assigns (.new .standard) 1).1 (.inr hempty), ?_⟩
  obtain ⟨s, hs, hnodes⟩ : ∃ s, ofTex "a=1" .standard = .ok s ∧
      s.document.formula.nodes = [.atom "a"] ++ .binary .equals :: [.atom "1"] := ⟨_, rfl, rfl⟩
  have htext : Decimal.display (sliderValue (-2e12)) = "-2000000000000" := by decide +kernel
  have hplain : Decimal.IsPlain (Decimal.display (sliderValue (-2e12))).toList :=
    Decimal.isPlain_display (by decide +kernel)
  have hname : Row.IsName (Node.symbolText "a").toList := ⟨'a', [], rfl, rfl, by simp⟩
  have hvalue : Decimal.read? "-2000000000000" = some (-2e12) := by decide +kernel
  obtain ⟨s', hs', hrewritten, hrow⟩ := (Reached.setSlider_assigns (.ofTex hs) (-2e12)).2
    _ _ (by decide +kernel) hnodes (by simp) hplain
  have haxis : ∀ axis : Axis, Node.symbolText "a" ≠ axis.name := by
    intro axis
    cases axis <;> decide +kernel
  obtain ⟨x, hx, hslider⟩ := hrow "a" 0 rfl hname haxis
  rw [htext, hvalue] at hx
  obtain rfl := Option.some.inj hx
  refine ⟨s, s', hs, hs', ?_, hslider⟩
  rw [hrewritten.nodes, htext]
  rfl

end Session

end FormulaEditor
