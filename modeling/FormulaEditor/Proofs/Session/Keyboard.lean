import FormulaEditor.Proofs.Document.Legible
import FormulaEditor.Proofs.Formula.Writing
import FormulaEditor.Proofs.Session.Reached
import FormulaEditor.Proofs.Tex.Settled

/-!
# What keys write

A session that begins empty and goes on by characters and keys holds nothing but what formula text
can be read as. Its text therefore restores it, unless it shows one of three things that text means
otherwise: a script glyph as a symbol, an index with unmatched brackets, or scripts side by side
that text takes for one.
-/

namespace FormulaEditor

/-- What text means by the node is the node, once it is legible: the symbol is no script glyph, and
the brackets of the index match. -/
def Node.Faithful : Node → Prop
  | .atom text => ∀ c ∈ text.toList, Tex.isScriptGlyph c = false
  | .radical (some index) _ => bracketsFrom 0 index = some 0
  | _ => True

/-- A legible node out of italics is canonical just if text means it. -/
theorem Node.canonical_iff_faithful {n : Node} (hn : n.Legible)
    (hplain : ∀ text, n = .atom text → Text.unitalicize text = text) :
    n.Canonical ↔ n.Faithful := by
  rcases n with text | _ | _ | _ | _ | ⟨_ | _, _⟩ | ⟨_ | _, _ | _⟩ | _ | _
  case atom =>
    obtain ⟨c, rfl, hc⟩ := hn.exists_char
    have hplain : Text.plain c = c := by
      have := hplain _ rfl
      rw [Text.unitalicize_singleton] at this
      simpa using congrArg String.toList this
    constructor
    · rintro ⟨c', hc', -, hglyph, -⟩
      obtain rfl : c = c' := by simpa using congrArg String.toList hc'
      simpa [Node.Faithful] using hglyph
    · intro h
      exact ⟨c, rfl, hc, h c (by simp), hplain⟩
  all_goals simp_all [Node.Canonical, Node.Faithful, Node.Legible]

/-- The element of a legible store is read as a legible node out of italics. -/
theorem Element.legible_toNode {x : Element} {read : ListId → List Node} (hx : x.Legible)
    (hfilled : x.Filled) : (x.toNode read).Legible ∧
      ∀ text, x.toNode read = .atom text → Text.unitalicize text = text := by
  cases x with
  | atom italic =>
    refine ⟨hx, ?_⟩
    rintro _ ⟨⟩
    exact Text.unitalicize_unitalicize italic
  | scripts exponent subscript acceptor =>
    obtain ⟨hhalf, -⟩ := hfilled
    cases exponent <;> cases subscript <;> simp_all [Element.toNode, Node.Legible]
  | radical index => cases index <;> simp [Element.toNode, Node.Legible]
  | function | paren => exact ⟨hx, by simp [Element.toNode]⟩
  | _ => simp [Element.toNode, Node.Legible]

namespace Document

variable {doc : Document}

theorem Legible.everyNode (h : doc.Legible) (hf : doc.formula.Tidy) :
    Node.EveryNode (fun n => n.Legible ∧ ∀ text, n = .atom text → Text.unitalicize text = text)
      doc.formula.nodes := by
  refine Formula.everyNode_snapshotWithin hf.toLinked (fun e l hp read => ?_) _ _
  have he : doc.formula.HasElement e := Formula.hasElement_of_parent hp
  exact Element.legible_toNode (h.stores.element e he List.not_mem_nil) (hf.filled e l hp)

/-- The content of a legible document is canonical just if text means every node of it and no two of
them are taken for one. -/
theorem Legible.canonical_iff (h : doc.Legible) (hf : doc.formula.Tidy) :
    Tex.Canonical doc.formula.nodes ↔
      Node.EveryList (fun ns => (∀ n ∈ ns, n.Faithful) ∧ ns.IsChain Node.Apart)
        doc.formula.nodes := by
  have hall := h.everyNode hf
  constructor
  · refine fun hc => (hall.and hc).mono fun ns ⟨hns, hc⟩ => ⟨fun n hn => ?_, hc.2⟩
    exact (Node.canonical_iff_faithful (hns n hn).1 (hns n hn).2).mp (hc.1 n hn)
  · refine fun hc => (hall.and hc).mono fun ns ⟨hns, hc⟩ => ⟨fun n hn => ?_, hc.2⟩
    exact (Node.canonical_iff_faithful (hns n hn).1 (hns n hn).2).mpr (hc.1 n hn)

end Document

namespace Session

open Document

variable {s s' : Session} {doc : Document} {c : Char}

/-! ## Typing -/

theorem Typed.legible_of_ofChar? {n : Node} (h : Typed.ofChar? c = some (.node n)) :
    Node.EveryNode Node.Legible [n] := by
  cases TypedBy.of_ofChar? h with
  | symbol hc =>
    refine Tex.legible_single (Tex.legible_ofChar ?_) (by simp [Node.lists, Node.ofChar])
    obtain halpha | rfl | rfl := hc
    · exact Tex.isAtomChar_of_isAlphanumeric halpha
    all_goals simp [Tex.isAtomChar]
  | prime =>
    have hprime : Tex.isAtomChar '′' := by simp [Tex.isAtomChar]
    exact Tex.legible_single (Tex.legible_ofChar hprime) (by simp [Node.lists, Node.ofChar])
  | operator => exact Tex.legible_single trivial (by simp [Node.lists])
  | paren hc => exact Tex.legible_paren hc
  | bar => exact Tex.legible_single trivial (by simp [Node.lists, Node.everyNode_nil])

theorem Typed.lt_of_ofChar? {digit : Nat} (h : Typed.ofChar? c = some (.raised digit)) :
    digit < 10 := by
  cases TypedBy.of_ofChar? h with
  | raised hdigit => exact (List.idxOf?_eq_some_iff.mp hdigit).1

theorem legible_digit {digit : Nat} (h : digit < 10) :
    Node.EveryNode Node.Legible [.atom (toString digit)] := by
  have hdigits : ∀ digit < 10, toString digit = String.singleton digit.digitChar ∧
      Tex.isAtomChar digit.digitChar := by decide +kernel
  exact Tex.legible_single ⟨_, hdigits digit h⟩ (by simp [Node.lists])

/-- Typing stores what formula text can be read as. -/
theorem Typed.apply_legible {greedy : Bool} {typed : Typed} (h : doc.Legible)
    (hn : ∀ n, typed = .node n → Node.EveryNode Node.Legible [n])
    (hd : ∀ digit, typed = .raised digit → digit < 10) :
    Yields (typed.apply greedy doc) Document.Legible := by
  cases typed with
  | raised digit =>
    refine h.insertScript.bind fun doc₁ h₁ => ?_
    refine (h₁.insertNode (legible_digit (hd digit rfl))).bind fun doc₂ h₂ => ?_
    exact h₂.move.bind fun _ hr => .ok hr
  | node n => exact h.insertNode (hn n rfl)
  | fraction =>
    cases greedy with
    | true => exact h.insertGreedy
    | false =>
      have hfrac : Node.EveryNode Node.Legible [.frac [] []] :=
        Tex.legible_single trivial (by simp [Node.lists, Node.everyNode_nil])
      change Yields (doc.insertNode (.frac [] []) .left) _
      exact h.insertNode hfrac
  | superscript => exact h.insertScript
  | subscript => exact h.insertScript

theorem typeChar_legible (h : s.document.Legible) (c : Char) :
    Yields (s.typeChar c) fun r => r.1.document.Legible := by
  unfold typeChar
  split
  · exact .ok h
  · rename_i typed htyped
    have hedit : Yields (s.edit (typed.apply s.options.greedyFraction))
        fun s' => s'.document.Legible :=
      (Typed.apply_legible h (fun n hn => Typed.legible_of_ofChar? (hn ▸ htyped))
        (fun d hd => Typed.lt_of_ofChar? (hd ▸ htyped))).bind fun _ hdoc => .ok hdoc
    exact hedit.bind fun _ hs => .ok hs

/-! ## Keys -/

theorem delete_legible (h : s.document.Legible) {d : Direction} :
    Yields (s.edit fun doc => (doc.delete d).map Prod.fst) fun s' => s'.document.Legible :=
  h.delete.map.bind fun _ hdoc => .ok hdoc

/-- Keys move or delete; they store nothing new. -/
theorem press_legible (h : s.document.Legible) (key : Key) :
    Yields (s.press key) fun r => r.1.document.Legible := by
  cases key with
  | move d select =>
    have hmove : Yields (s.moveCaret d select) fun r => r.1.document.Legible :=
      h.move.bind fun _ hr => .ok hr
    exact hmove.bind fun _ hr => .ok hr
  | backspace => exact (delete_legible h).bind fun _ hs => .ok hs
  | delete => exact (delete_legible h).bind fun _ hs => .ok hs
  | selectAll => exact .ok ⟨h.stores⟩
  | copy => exact Yields.bind_any fun _ => .ok h
  | cut =>
    have hcut : Yields s.cut fun r => r.1.document.Legible := h.cut.bind fun _ hr => .ok hr
    exact hcut.bind fun _ hr => .ok hr

/-! ## Sessions -/

/-- The sessions that begin empty and go on by characters and keys. -/
inductive Keyed : Session → Prop
  | new (options : EditorOptions) : Keyed (new options)
  | type {s s' : Session} {c : Char} (hs : Keyed s) (h : s.perform (.type c) = .ok s') : Keyed s'
  | press {s s' : Session} {key : Key} (hs : Keyed s) (h : s.perform (.press key) = .ok s') :
    Keyed s'

/-- A formula made from the text of the session shows what the session shows. -/
def Restorable (s : Session) : Prop :=
  ∃ ns, Tex.read s.tex = .ok ns ∧ (Formula.ofNodes ns).nodes = s.document.formula.nodes

theorem Keyed.reached (h : s.Keyed) : s.Reached := by
  induction h with
  | new options => exact .new options
  | @type s _ c _ h ih =>
    have ha : (Action.type c).Allowed s := trivial
    exact .perform ih ha h
  | @press s _ key _ h ih =>
    have ha : (Action.press key).Allowed s := trivial
    exact .perform ih ha h

theorem Keyed.legible (h : s.Keyed) : s.document.Legible := by
  induction h with
  | new options => exact .empty
  | type _ h ih => exact Yields.map (q := fun s' => s'.document.Legible) (typeChar_legible ih _) _ h
  | press _ h ih => exact Yields.map (q := fun s' => s'.document.Legible) (press_legible ih _) _ h

/-- Typing a text is typing its characters. -/
theorem Keyed.typeChars {cs : List Char} {results : List KeyResult} (h : s.Keyed)
    (ht : s.typeChars cs = .ok (s', results)) : s'.Keyed := by
  induction cs generalizing s results with
  | nil =>
    cases ht
    exact h
  | cons c cs ih =>
    obtain ⟨⟨s₁, result⟩, hc, ht⟩ := bind_eq_ok.mp ht
    obtain ⟨⟨s₂, rest⟩, hcs, ht⟩ := bind_eq_ok.mp ht
    cases ht
    exact ih (h.type (c := c) (congrArg (Except.map Prod.fst) hc)) hcs

/-- What has been typed is restored from its text just if, at every depth, no symbol is a script
glyph, the brackets of every index match, and no scripts stand before others that text joins them
with. -/
theorem Keyed.restorable_iff (h : s.Keyed) : s.Restorable ↔
    Node.EveryList (fun ns => (∀ n ∈ ns, n.Faithful) ∧ ns.IsChain Node.Apart)
      s.document.formula.nodes := by
  rw [Restorable, Session.tex, Document.tex, Formula.tex_eq]
  exact Tex.restored_nodes_iff.trans (h.legible.canonical_iff h.reached.valid.formula)

/-- A letter and its exponent are restored. -/
theorem restorable_power : ∃ s results,
    (new .literal).typeChars ['x', '^', '2'] = .ok (s, results) ∧ s.Keyed ∧ s.Restorable := by
  have hrun : ∃ s results, (new .literal).typeChars ['x', '^', '2'] = .ok (s, results) ∧
      s.document.formula.nodes = [.atom "x", .scripts (some [.atom "2"]) none] :=
    ⟨_, _, rfl, rfl⟩
  obtain ⟨s, results, hrun, hnodes⟩ := hrun
  have hkeyed : s.Keyed := .typeChars (.new .literal) hrun
  refine ⟨s, results, hrun, hkeyed, hkeyed.restorable_iff.mpr ?_⟩
  have hx : (Node.atom "x").Faithful := by
    change ∀ c ∈ ['x'], Tex.isScriptGlyph c = false
    decide
  have htwo : (Node.atom "2").Faithful := by
    change ∀ c ∈ ['2'], Tex.isScriptGlyph c = false
    decide
  have hscripts : (Node.scripts (some [.atom "2"]) none).Faithful := trivial
  rw [hnodes]
  refine .intro ⟨by simp [hx, hscripts], by simp [Node.Apart]⟩ fun n hn l hl => ?_
  obtain rfl : l = [.atom "2"] := by
    simp only [List.mem_cons, List.not_mem_nil, or_false] at hn
    obtain rfl | rfl := hn
    · cases hl
    · simpa [Node.lists] using hl
  exact .of_leaves ⟨by simpa using htwo, by simp⟩ (by simp [Node.lists])

/-- A lowered digit is typed as a symbol, but text means a subscript by it. -/
theorem not_restorable_lowered_digit : ∃ s, (new .standard).perform (.type '₂') = .ok s ∧
    s.Keyed ∧ s.tex = "₂" ∧ ¬s.Restorable := by
  have hrun : ((new .standard).perform (.type '₂')).map
      (fun s => (s.tex, s.document.formula.nodes.map Node.kind)) = .ok ("₂", [.atom "₂"]) := by
    decide +kernel
  obtain ⟨s, hs, hshown⟩ := map_eq_ok.mp hrun
  obtain ⟨htex, hkinds⟩ := Prod.mk.inj hshown
  refine ⟨s, hs, .type (.new .standard) hs, htex, ?_⟩
  -- What is read is scripts, and what was typed is not.
  rintro ⟨ns, hread, hnodes⟩
  have hread' : Tex.read "₂" = .ok [.scripts none (some [.atom "2"])] := rfl
  rw [htex, hread'] at hread
  cases hread
  rw [← hnodes] at hkinds
  exact absurd hkinds (by decide +kernel)

/-- A closing bracket ends the index it is typed in, and the text is refused. -/
example : ((new .standard).typeChars "nthroot]".toList).map (fun r => (Tex.read r.1.tex).isOk) =
    .ok false := by
  decide +kernel

end Session

end FormulaEditor
