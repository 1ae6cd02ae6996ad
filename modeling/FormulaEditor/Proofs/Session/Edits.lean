import FormulaEditor.Proofs.Document.Clipboard
import FormulaEditor.Proofs.Document.Compact
import FormulaEditor.Session

/-!
# Session operations keep a document valid

Every operation of a session succeeds on a valid document and leaves a valid one. Each is a few edits
of the document, one after the other.
-/

namespace FormulaEditor

namespace Document

variable {doc : Document} {b : Bool}

theorem valid_empty : (empty b).Valid :=
  ⟨.empty, Caret.valid_ofPlace (Formula.isPlace_startOf Formula.reachable_root)⟩

/-- A formula that is planted as a whole has its caret before it. -/
theorem valid_ofNodes {ns : List Node} (hns : Node.EveryNode Node.Filled ns) :
    (ofNodes ns b).Valid := by
  obtain ⟨hg, -, hes⟩ := Formula.Tidy.empty.plantAll hns
  have htidy := hg.replaceRange hg.root_hasList (Nat.le_refl 0) hes
  exact ⟨htidy, Caret.valid_ofPlace (Formula.isPlace_startOf Formula.reachable_root)⟩

theorem Valid.moveCaret {q : Place} (h : doc.Valid) (hq : doc.formula.IsPlace q) :
    (doc.moveCaret q).Valid :=
  ⟨h.formula, h.caret.moveTo hq⟩

theorem Valid.selectAll (h : doc.Valid) : doc.selectAll.Valid :=
  ⟨h.formula, Caret.valid_selectAll⟩

theorem Valid.point (h : doc.Valid) {target : Caret.Target} (ht : target.Attached doc.formula)
    (side : Direction) (drag : Bool) : (doc.point target side drag).Valid :=
  ⟨h.formula, h.caret.point h.formula ht side drag⟩

end Document

namespace Session

open Document

variable {s : Session} {doc : Document}

/-! ## Typing -/

/-- What a key types. -/
inductive TypedBy (c : Char) : Typed → Prop
  | raised {digit : Nat} (hc : Symbol.superscriptDigits.idxOf? c = some digit) :
    TypedBy c (.raised digit)
  | symbol (hc : Unicode.isAlphanumeric c = true ∨ c = '!' ∨ c = '.') : TypedBy c (.node (.ofChar c))
  | operator {op : BinaryOp} (hc : BinaryOp.ofKey? c = some op) : TypedBy c (.node (.binary op))
  | prime (hc : c = '\'') : TypedBy c (.node (.ofChar '′'))
  | paren (hc : isParen c = true) : TypedBy c (.node (.paren c))
  | fraction (hc : c = '/') : TypedBy c .fraction
  | superscript (hc : c = '^') : TypedBy c .superscript
  | subscript (hc : c = '_') : TypedBy c .subscript
  | bar (hc : c = '|') : TypedBy c (.node (.wrapped .abs []))

theorem TypedBy.of_ofChar? {c : Char} {typed : Typed} (h : Typed.ofChar? c = some typed) :
    TypedBy c typed := by
  unfold Typed.ofChar? at h
  cases hdigit : Symbol.superscriptDigits.idxOf? c with
  | some digit =>
    simp only [hdigit, Option.some.injEq] at h
    exact h ▸ .raised hdigit
  | none =>
    simp only [hdigit] at h
    by_cases halpha : Unicode.isAlphanumeric c = true
    · rw [if_pos halpha] at h
      exact Option.some.inj h ▸ .symbol (.inl halpha)
    rw [if_neg halpha] at h
    cases hop : BinaryOp.ofKey? c with
    | some op =>
      simp only [hop, Option.some.injEq] at h
      exact h ▸ .operator hop
    | none =>
      simp only [hop, beq_iff_eq, Bool.or_eq_true] at h
      split_ifs at h with hmark hprime hparen hslash hup hdown hbar
      all_goals cases h
      exacts [.symbol (.inr hmark), .prime hprime, .paren hparen, .fraction hslash,
        .superscript hup, .subscript hdown, .bar hbar]

/-- A typed character asks for a node without content at most. -/
theorem Typed.filled_of_ofChar? {c : Char} {n : Node} (h : Typed.ofChar? c = some (.node n)) :
    Node.EveryNode Node.Filled [n] := by
  cases TypedBy.of_ofChar? h <;>
    exact Node.everyNode_filled trivial (by simp [Node.lists, Node.ofChar])

theorem Typed.apply_valid {greedy : Bool} {typed : Typed} (h : doc.Valid)
    (hn : ∀ n, typed = .node n → Node.EveryNode Node.Filled [n]) :
    Succeeds (typed.apply greedy doc) Valid := by
  cases typed with
  | raised digit =>
    refine (h.insertScript true).bind fun doc₁ h₁ => ?_
    have hdigit : Node.EveryNode Node.Filled [.atom (toString digit)] :=
      Node.everyNode_filled trivial (by simp [Node.lists])
    refine (h₁.toValid.insertNode hdigit .left).bind fun doc₂ h₂ => ?_
    refine (h₂.toValid.move .right false).bind fun r h₃ => ?_
    exact .ok h₃.1
  | node n => exact (h.insertNode (hn n rfl) .left).mono fun _ h => h.toValid
  | fraction =>
    cases greedy with
    | true => exact (h.insertGreedy .frac).mono fun _ h => h.toValid
    | false => exact (h.insertNode (filled_emptyNode .frac) .left).mono fun _ h => h.toValid
  | superscript => exact (h.insertScript true).mono fun _ h => h.toValid
  | subscript => exact (h.insertScript false).mono fun _ h => h.toValid

/-- An edit of the document is an edit of the session. -/
theorem edit_valid {change : Document → Except Misuse Document}
    (h : Succeeds (change s.document) Valid) :
    Succeeds (s.edit change) fun s' => s'.document.Valid :=
  h.bind fun _ hdoc => .ok hdoc

theorem typeChar_valid (h : s.document.Valid) (c : Char) :
    Succeeds (s.typeChar c) fun r => r.1.document.Valid := by
  unfold typeChar
  split
  · exact .ok h
  · rename_i typed htyped
    refine (edit_valid (Typed.apply_valid h fun n hn => ?_)).bind fun s' hs => .ok hs
    exact Typed.filled_of_ofChar? (hn ▸ htyped)

/-! ## Keys -/

theorem moveCaret_valid (h : s.document.Valid) (d : Direction) (select : Bool) :
    Succeeds (s.moveCaret d select) fun r => r.1.document.Valid :=
  (h.move d select).bind fun _ hr => .ok hr.1

theorem cut_valid (h : s.document.Valid) : Succeeds s.cut fun r => r.1.document.Valid :=
  h.cut.bind fun _ hr => .ok hr

theorem delete_valid (h : s.document.Valid) {d : Direction} (hd : d.isVertical = false) :
    Succeeds (s.edit fun doc => (doc.delete d).map Prod.fst) fun s' => s'.document.Valid :=
  edit_valid ((h.delete hd).mono fun _ hr => hr.toValid).map

theorem press_valid (h : s.document.Valid) (key : Key) :
    Succeeds (s.press key) fun r => r.1.document.Valid := by
  cases key with
  | move d select => exact (moveCaret_valid h d select).bind fun _ hr => .ok hr
  | backspace => exact (delete_valid h rfl).bind fun _ hs => .ok hs
  | delete => exact (delete_valid h rfl).bind fun _ hs => .ok hs
  | selectAll => exact .ok h.selectAll
  | copy =>
    obtain ⟨text, htext⟩ := h.copy
    exact Succeeds.bind (p := fun _ => True) ⟨text, htext, trivial⟩ fun _ _ => .ok h
  | cut => exact (cut_valid h).bind fun _ hr => .ok hr

/-! ## Whole texts -/

theorem paste_valid (h : s.document.Valid) (text : String) :
    Succeeds (s.paste text) fun r => ∀ s', r = .ok s' → s'.document.Valid := by
  refine (h.paste text).bind fun r hr => ?_
  cases r with
  | error error => simp
  | ok doc =>
    refine .ok ?_
    rintro _ ⟨⟩
    exact hr doc rfl

/-- A text that can be read becomes a valid document. -/
theorem setTex_valid {text : String} {s' : Session} (h : s.setTex text = .ok s') :
    s'.document.Valid := by
  obtain ⟨ns, hns, ⟨⟩⟩ := bind_eq_ok.mp h
  exact (valid_ofNodes (Tex.filled_of_read hns)).moveCaret
    (Formula.isPlace_endOf Formula.reachable_root)

theorem filled_sliderNodes (text : String) : Node.EveryNode Node.Filled (sliderNodes text) := by
  refine Node.everyNode_iff_forall.mpr fun n hn => ?_
  obtain ⟨c, -, hc⟩ := List.mem_filterMap.mp hn
  have hleaf : n.Filled ∧ n.lists = [] := by
    grind [Node.Filled, Node.lists, Node.ofChar]
  exact Node.everyNode_filled hleaf.1 (by simp [hleaf.2])

/-- Without what follows some place of the root, the document rests with its caret at the end. -/
theorem resting_dropAfter {start : Nat} (h : doc.Valid)
    (hstart : start ≤ doc.formula.length doc.formula.root) :
    Succeeds (doc.cancelSelection.splice doc.formula.root start
      (doc.formula.length doc.formula.root) []) fun x =>
        (x.1.moveCaret (x.1.formula.endOf doc.formula.root)).Resting := by
  have hrest := h.cancelSelection
  have hf := hrest.formula
  rw [show doc.cancelSelection.splice _ _ _ _ = _ from splice_eq hstart (Nat.le_refl _)]
  exact .ok (hrest.edit (hf.replaceRange hf.root_hasList hstart .nil)
    (Formula.isPlace_endOf (hf.reachable_replaceRange Formula.reachable_root)))

theorem setSlider_valid (h : s.document.Valid) (value : Float) :
    Succeeds (s.setSlider value) fun r => r.1.document.Valid := by
  unfold setSlider
  split
  · exact .ok h
  · simp only
    split
    · exact .ok h
    · rename_i equals hequals
      have hlt : equals < s.document.formula.length s.document.formula.root :=
        (List.findIdx?_eq_some_iff_findIdx_eq.mp hequals).1
      refine (resting_dropAfter h hlt).bind fun x hend => ?_
      refine (hend.insertNodes (filled_sliderNodes _) .left).bind fun doc' h' => ?_
      exact .ok h'.toValid

theorem compact_valid (h : s.document.Valid) :
    Succeeds s.compact fun r => r.1.document.Valid :=
  h.compact.bind fun _ hr => .ok hr

end Session

end FormulaEditor
