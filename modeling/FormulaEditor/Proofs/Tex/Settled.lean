import FormulaEditor.Proofs.Tex.RoundTrip

/-!
# Canonical form

Text is put into canonical form by reading it and writing what was read. The form is final just if
the notation, settled as the text has it, is canonical: nothing else has the same tokens.
-/

namespace FormulaEditor.Tex

open Node (EveryNode Legible join settled settledAll)

variable {n : Node} {ns : List Node}

/-! ## Settled notation has the same text -/

theorem appendPiece_of_isAlpha {written cs : List Char} {c : Char} (hc : c.isAlpha = false) :
    appendPiece written (c :: cs) = written ++ c :: cs := by
  simp [appendPiece, hc]

theorem writeAfter_join (written : List Char) (n : Node) (ns : List Node) :
    writeAfter written (join n ns) = writeAfter written (n :: ns) := by
  unfold join
  split
  · rw [writeAfter, writeAfter, writeAfter, writeNode_scripts, writeNode_subscript,
      writeNode_exponent, List.cons_append, appendPiece_of_isAlpha (by decide),
      appendPiece_of_isAlpha (by decide), appendPiece_of_isAlpha (by decide)]
    simp
  · rfl

/-- The text does not tell whether letters are in italics, nor how notation was put together if that
leaves the text of a list as it is. -/
theorem writeAfter_respelledAll {attach : Node → List Node → List Node}
    (hattach : ∀ written n ns, writeAfter written (attach n ns) = writeAfter written (n :: ns))
    (ns : List Node) (written : List Char) :
    writeAfter written (Node.respelledAll attach ns) = writeAfter written ns := by
  refine (Node.induction (P := fun n => writeNode (n.respelled attach) = writeNode n)
    (Q := fun ns => ∀ written, writeAfter written (Node.respelledAll attach ns) =
      writeAfter written ns)
    ?node ?nil ?cons).2 ns written
  case node =>
    intro n ih
    have ih : ∀ l ∈ n.lists, writeAfter [] (Node.respelledAll attach l) = writeAfter [] l :=
      fun l hl => ih l hl []
    rcases n with _ | _ | _ | _ | _ | ⟨_ | _, _⟩ | ⟨_ | _, _ | _⟩ | _ | _ <;>
      simp only [Node.lists, Option.toList, List.cons_append, List.nil_append,
        List.forall_mem_cons] at ih
    case atom text =>
      simp [Node.respelled, writeNode_atom]
    all_goals first
      | rfl
      | simp only [Node.respelled, writeNode_frac, writeNode_squareRoot, writeNode_root,
          writeNode_exponent, writeNode_subscript, writeNode_scripts, writeNode_wrapped,
          writeNode_big, ih]
  case nil => exact fun _ => rfl
  case cons =>
    intro n ns hn hns written
    rw [Node.respelledAll, hattach, writeAfter]
    exact (hns _).trans (congrArg (writeAfter · ns) (congrArg (appendPiece written) hn))

/-- Settled notation has the text of what was settled. -/
theorem write_settledAll (ns : List Node) : write (settledAll ns) = write ns :=
  congrArg String.ofList (writeAfter_respelledAll writeAfter_join ns [])

/-- Notation out of italics has the text of the notation. -/
theorem write_uprightAll (ns : List Node) : write (Node.uprightAll ns) = write ns :=
  congrArg String.ofList (writeAfter_respelledAll (fun _ _ _ => rfl) ns [])

/-- The text of notation restores it in a formula just if it is canonical. -/
theorem restored_nodes_iff :
    (∃ ms, read (write ns) = .ok ms ∧ (Formula.ofNodes ms).nodes = ns) ↔ Canonical ns := by
  constructor
  · rintro ⟨ms, hread, hms⟩
    rw [Formula.nodes_ofNodes] at hms
    have hwrite : write ns = write ms := by rw [← hms, write_uprightAll]
    have hcanonical : Canonical ms := (read_write_iff (legible_of_read hread)).mp (hwrite ▸ hread)
    rw [← hms, hcanonical.uprightAll]
    exact hcanonical
  · intro h
    exact ⟨ns, (read_write_iff h.legible).mpr h, by rw [Formula.nodes_ofNodes, h.uprightAll]⟩

/-- What is put in front of legible notation leaves it legible, joined or not. -/
theorem legible_join (h : EveryNode Legible (n :: ns)) : EveryNode Legible (join n ns) := by
  unfold join
  split
  · obtain ⟨⟨-, hs⟩, h⟩ := Node.everyNode_cons.mp h
    obtain ⟨⟨-, he⟩, h⟩ := Node.everyNode_cons.mp h
    refine Node.everyNode_cons.mpr ⟨⟨trivial, ?_⟩, h⟩
    simp_all [Node.lists]
  · exact h

theorem legible_settledAll (hns : EveryNode Legible ns) : EveryNode Legible (settledAll ns) := by
  refine (Node.induction (P := fun n => n.Legible → (∀ l ∈ n.lists, EveryNode Legible l) →
    EveryNode Legible [n.settled])
    (Q := fun ns => EveryNode Legible ns → EveryNode Legible (settledAll ns)) ?node ?nil ?cons).2
    ns hns
  case node =>
    intro n ih hn hl
    have hlists : ∀ l ∈ n.settled.lists, EveryNode Legible l := by
      rw [settled, Node.lists_respelled]
      simpa [settledAll] using fun l hmem => ih l hmem (hl l hmem)
    refine legible_single ?_ hlists
    rcases n with text | _ | _ | _ | _ | ⟨_ | _, _⟩ | ⟨_ | _, _ | _⟩ | _ | _
    case atom =>
      obtain ⟨c, rfl, hc⟩ := hn.exists_char
      refine ⟨Text.plain c, ?_, isAtomChar_plain hc⟩
      rw [Text.unitalicize, String.toList_singleton, List.map_singleton]
      rfl
    all_goals exact hn
  case nil => exact fun _ => Node.everyNode_nil
  case cons =>
    intro n ns hn hns h
    obtain ⟨⟨hlegible, hlists⟩, h⟩ := Node.everyNode_cons.mp h
    exact legible_join
      (Node.everyNode_append.mpr ⟨hn hlegible hlists, hns h⟩)

/-! ## Tokens determine settled notation -/

/-- The sort of node that a token begins. All function names begin alike. -/
def leadKind : Token → Kind
  | .command name =>
    match Command.ofName? name with
    | some .sqrt => .radical
    | some (.wrap wrap) => .wrapped wrap
    | some .operatorName => .function ""
    | some .times => .binary .times
    | some (.paren c) => .paren c
    | some (.big op) => .big op
    | _ => .frac
  | .char c =>
    if isParen c then .paren c
    else (BinaryOp.ofChar? c).elim (.atom (String.singleton c)) .binary
  | _ => .scripts

/-- The kind of a node, function names aside. -/
def sortOf (n : Node) : Kind :=
  match n.kind with
  | .function _ => .function ""
  | kind => kind

theorem not_isParen_of_isAtomChar {c : Char} (h : isAtomChar c) : isParen c = false := by
  have hparens : ∀ c ∈ ['(', '[', '\x7b', ')', ']', '\x7d'], isAtomChar c = false := by
    decide +kernel
  cases hp : isParen c with
  | false => rfl
  | true =>
    have hmem : c ∈ ['(', '[', '\x7b', ')', ']', '\x7d'] := by simpa using isParen_iff.mp hp
    simp [hparens c hmem] at h

/-- The first token tells what sort of node it is. -/
theorem leadKind_eq {t : Token} {ts : List Token} (hn : n.Legible) (h : tokens n = t :: ts) :
    leadKind t = sortOf n := by
  rcases n with text | op | _ | c | _ | ⟨_ | _, _⟩ | ⟨_ | _, _ | _⟩ | wrap | op
  case atom =>
    obtain ⟨c, rfl, hc⟩ := hn.exists_char
    have hc := isAtomChar_plain hc
    simp only [tokens, String.toList_singleton, List.map_singleton, List.cons.injEq] at h
    obtain ⟨rfl, -⟩ := h
    simp only [leadKind, not_isParen_of_isAtomChar hc, ofChar?_of_isAtomChar hc, Option.elim_none,
      Bool.false_eq_true, ↓reduceIte, sortOf, Node.kind, Text.unitalicize,
      String.toList_singleton, List.map_singleton]
    rfl
  case binary => cases op <;> cases h <;> rfl
  case paren =>
    obtain rfl | rfl | rfl | rfl | rfl | rfl := isParen_iff.mp hn
    all_goals
      cases h
      rfl
  case wrapped => cases wrap <;> cases h <;> rfl
  case big => cases op <;> cases h <;> rfl
  case scripts.none.none => exact absurd hn (by simp [Node.Legible])
  all_goals
    cases h
    rfl

/-- Tokens that no node begins with, or after which none can follow. -/
inductive Stops : List Token → Prop
  | nil : Stops []
  | endGroup (ts : List Token) : Stops (.endGroup :: ts)
  | bracket (ts : List Token) : Stops (.char ']' :: .beginGroup :: ts)

/-- Up to a stop, the tokens of a list tell the settled list. -/
structure Determined (ns : List Node) : Prop where
  eq : ∀ {ns' ts ts'}, EveryNode Legible ns' → Stops ts → Stops ts' →
    tokensAll ns ++ ts = tokensAll ns' ++ ts' → settledAll ns = settledAll ns' ∧ ts = ts'

/-- No node stands at a stop. -/
theorem Stops.eq_nil {ts ts' : List Token} (h : Stops ts) (h' : Stops ts')
    (hns : EveryNode Legible ns) (heq : tokensAll ns ++ ts' = ts) : ns = [] := by
  cases ns with
  | nil => rfl
  | cons n ns =>
    obtain ⟨⟨hn, -⟩, hrest⟩ := Node.everyNode_cons.mp hns
    obtain ⟨t, more, htokens, hb⟩ := exists_begins hn
    simp only [tokensAll, htokens, List.cons_append, List.append_assoc] at heq
    cases h with
    | nil => cases heq
    | endGroup => exact absurd (List.cons.inj heq).1 hb.endGroup
    | bracket after =>
      rw [List.cons.injEq] at heq
      obtain ⟨ht, heq⟩ := heq
      obtain rfl := hb.closes.mp ht
      -- A closing bracket that is a node is not followed by a group.
      obtain rfl : [] = more := by
        cases htokens
        rfl
      cases ns with
      | nil => cases h' <;> simp [tokensAll] at heq
      | cons next ns =>
        obtain ⟨⟨hn, -⟩, -⟩ := Node.everyNode_cons.mp hrest
        obtain ⟨t, more, htokens, hb⟩ := exists_begins hn
        rw [tokensAll, htokens] at heq
        exact absurd (List.cons.inj heq).1 hb.beginGroup

variable {l l' : List Node} {ts ts' : List Token}

theorem Determined.group (h : Determined l) (hl' : EveryNode Legible l')
    (heq : tokensAll l ++ .endGroup :: ts = tokensAll l' ++ .endGroup :: ts') :
    settledAll l = settledAll l' ∧ ts = ts' := by
  obtain ⟨hl, hts⟩ := h.eq hl' (.endGroup ts) (.endGroup ts') heq
  exact ⟨hl, (List.cons.inj hts).2⟩

theorem chars_inj {cs cs' : List Char}
    (heq : cs.map Token.char ++ .endGroup :: ts = cs'.map Token.char ++ .endGroup :: ts') :
    cs = cs' ∧ ts = ts' := by
  induction cs generalizing cs' with
  | nil =>
    cases cs' with
    | nil => exact ⟨rfl, (List.cons.inj heq).2⟩
    | cons => simp at heq
  | cons c cs ih =>
    cases cs' with
    | nil => simp at heq
    | cons c' cs' =>
      simp only [List.map_cons, List.cons_append, List.cons.injEq, Token.char.injEq] at heq
      obtain ⟨rfl, hts⟩ := ih heq.2
      exact ⟨congrArg (· :: cs) heq.1, hts⟩

theorem sortOf_eq {n n' : Node} (hn : n.Legible) (hn' : n'.Legible)
    (heq : tokens n ++ ts = tokens n' ++ ts') : sortOf n = sortOf n' := by
  obtain ⟨t, more, htokens, -⟩ := exists_begins hn
  obtain ⟨t', more', htokens', -⟩ := exists_begins hn'
  rw [htokens, htokens', List.cons_append, List.cons_append, List.cons.injEq] at heq
  rw [← leadKind_eq hn htokens, ← leadKind_eq hn' htokens', heq.1]

/-- Up to a stop, the tokens of a node that is no script tell the settled node. -/
theorem settled_inj {n n' : Node} (hn : n.Legible) (hn' : n'.Legible)
    (hl : ∀ l ∈ n.lists, Determined l) (hl' : ∀ l ∈ n'.lists, EveryNode Legible l)
    (hs : n.kind ≠ .scripts) (heq : tokens n ++ ts = tokens n' ++ ts') :
    n.settled = n'.settled ∧ ts = ts' := by
  have hsort := sortOf_eq hn hn' heq
  cases n <;> cases n' <;> simp only [sortOf, Node.kind, reduceCtorEq] at hsort
  case atom text text' =>
    obtain ⟨c, rfl, -⟩ := hn.exists_char
    obtain ⟨c', rfl, -⟩ := hn'.exists_char
    simp only [tokens, String.toList_singleton, List.map_singleton, List.singleton_append,
      List.cons.injEq, Token.char.injEq] at heq
    refine ⟨?_, heq.2⟩
    simp only [settled, Node.respelled, Text.unitalicize, String.toList_singleton,
      List.map_singleton, heq.1]
  case binary =>
    cases hsort
    exact ⟨rfl, (List.cons.inj heq).2⟩
  case function =>
    simp only [tokens, List.cons_append, grouped_append, List.cons.injEq, true_and] at heq
    obtain ⟨hname, hts⟩ := chars_inj heq
    exact ⟨congrArg Node.function (String.toList_injective hname), hts⟩
  case paren =>
    cases hsort
    exact ⟨rfl, (List.cons.inj heq).2⟩
  case frac =>
    simp only [Node.lists, List.forall_mem_cons] at hl hl'
    simp only [tokens, List.cons_append, List.append_assoc, grouped_append, List.cons.injEq,
      true_and] at heq
    obtain ⟨hnumerator, heq⟩ := hl.1.group hl'.1 heq
    obtain ⟨hdenominator, hts⟩ := hl.2.1.group hl'.2.1 (List.cons.inj heq).2
    exact ⟨congrArg₂ Node.frac hnumerator hdenominator, hts⟩
  case radical index radicand index' radicand' =>
    rcases index with _ | index <;> rcases index' with _ | index' <;>
      simp only [Node.lists, Option.toList, List.cons_append, List.nil_append,
        List.forall_mem_cons] at hl hl' <;>
      simp only [tokens, List.cons_append, List.append_assoc, grouped_append, List.cons.injEq,
        reduceCtorEq, true_and, false_and, and_false] at heq
    case none.none =>
      obtain ⟨hradicand, hts⟩ := hl.1.group hl'.1 heq
      exact ⟨congrArg (Node.radical none) hradicand, hts⟩
    case some.some =>
      obtain ⟨hindex, heq⟩ := hl.1.eq hl'.1 (.bracket _) (.bracket _) heq
      simp only [List.cons.injEq, true_and] at heq
      obtain ⟨hradicand, hts⟩ := hl.2.1.group hl'.2.1 heq
      exact ⟨congrArg₂ Node.radical (congrArg some hindex) hradicand, hts⟩
  case scripts => exact absurd rfl hs
  case wrapped =>
    cases hsort
    simp only [Node.lists, List.forall_mem_cons] at hl hl'
    simp only [tokens, List.cons_append, grouped_append, List.cons.injEq, true_and] at heq
    obtain ⟨hargument, hts⟩ := hl.1.group hl'.1 heq
    exact ⟨congrArg (Node.wrapped _) hargument, hts⟩
  case big =>
    cases hsort
    simp only [Node.lists, List.forall_mem_cons] at hl hl'
    simp only [tokens, List.cons_append, List.append_assoc, grouped_append, List.cons.injEq,
      true_and] at heq
    obtain ⟨hbottom, heq⟩ := hl.2.1.group hl'.2.1 heq
    simp only [List.cons.injEq, true_and] at heq
    obtain ⟨htop, hts⟩ := hl.1.group hl'.1 heq
    exact ⟨congrArg₂ (Node.big _) htop hbottom, hts⟩

/-- A list that goes on with an exponent begins with a node that is just that exponent. -/
theorem exists_exponent (hns : EveryNode Legible ns) (hts : Stops ts)
    (h : (tokensAll ns ++ ts).head? = some .superscript) :
    ∃ exponent rest, ns = .scripts (some exponent) none :: rest := by
  cases ns with
  | nil => cases hts <;> simp [tokensAll] at h
  | cons n ns =>
    obtain ⟨⟨hn, -⟩, -⟩ := Node.everyNode_cons.mp hns
    obtain ⟨t, more, htokens, hb⟩ := exists_begins hn
    simp only [tokensAll, htokens, List.cons_append, List.head?_cons, Option.some.injEq] at h
    obtain ⟨exponent, rfl⟩ := hb.raises.mp h
    exact ⟨exponent, ns, rfl⟩

section Equations

variable (exponent subscript ns : List Node)

theorem settledAll_exponent : settledAll (.scripts (some exponent) none :: ns) =
    .scripts (some (settledAll exponent)) none :: settledAll ns := rfl

theorem settledAll_subscript : settledAll (.scripts none (some subscript) :: ns) =
    join (.scripts none (some (settledAll subscript))) (settledAll ns) := rfl

theorem settledAll_scripts : settledAll (.scripts (some exponent) (some subscript) :: ns) =
    .scripts (some (settledAll exponent)) (some (settledAll subscript)) :: settledAll ns := rfl

end Equations

/-- Scripts tell themselves too, along with the node behind them that they take in. -/
theorem settledAll_scripts_inj {exponent subscript exponent' subscript' : Option (List Node)}
    {ns' : List Node} (hn : (Node.scripts exponent subscript).Legible)
    (hn' : (Node.scripts exponent' subscript').Legible)
    (hl : ∀ l ∈ (Node.scripts exponent subscript).lists, Determined l)
    (hl' : ∀ l ∈ (Node.scripts exponent' subscript').lists, EveryNode Legible l)
    (hns : Determined ns) (hns' : EveryNode Legible ns') (hts : Stops ts) (hts' : Stops ts')
    (heq : tokens (.scripts exponent subscript) ++ (tokensAll ns ++ ts) =
      tokens (.scripts exponent' subscript') ++ (tokensAll ns' ++ ts')) :
    settledAll (.scripts exponent subscript :: ns) =
      settledAll (.scripts exponent' subscript' :: ns') ∧ ts = ts' := by
  rcases exponent with _ | exponent <;> rcases subscript with _ | subscript <;>
    rcases exponent' with _ | exponent' <;> rcases subscript' with _ | subscript' <;>
    simp only [Node.lists, Option.toList, List.cons_append, List.nil_append, List.append_assoc,
      List.forall_mem_cons, tokens, grouped_append, List.cons.injEq, reduceCtorEq, true_and,
      false_and, Node.Legible] at hn hn' hl hl' heq
  case none.some.none.some =>
    obtain ⟨hsubscript, heq⟩ := hl.1.group hl'.1 heq
    obtain ⟨hrest, hts⟩ := hns.eq hns' hts hts' heq
    rw [settledAll_subscript, settledAll_subscript, hsubscript, hrest]
    exact ⟨rfl, hts⟩
  case none.some.some.some =>
    obtain ⟨hsubscript, heq⟩ := hl.1.group hl'.2.1 heq
    -- The exponent stands in a node of its own behind the subscript.
    have hexponent : EveryNode Legible (.scripts (some exponent') none :: ns') :=
      Node.everyNode_cons.mpr ⟨⟨trivial, by simpa [Node.lists] using hl'.1⟩, hns'⟩
    obtain ⟨hrest, hts⟩ :=
      hns.eq hexponent hts hts' (by simpa [tokensAll, tokens, grouped] using heq)
    rw [settledAll_subscript, settledAll_scripts, hsubscript, hrest]
    exact ⟨rfl, hts⟩
  case some.none.some.none =>
    obtain ⟨hexponent, heq⟩ := hl.1.group hl'.1 heq
    obtain ⟨hrest, hts⟩ := hns.eq hns' hts hts' heq
    rw [settledAll_exponent, settledAll_exponent, hexponent, hrest]
    exact ⟨rfl, hts⟩
  case some.some.none.some =>
    obtain ⟨hsubscript, heq⟩ := hl.2.1.group hl'.1 heq
    obtain ⟨exponent', rest', rfl⟩ := exists_exponent hns' hts' (by rw [← heq]; rfl)
    obtain ⟨⟨-, hlist⟩, hrest'⟩ := Node.everyNode_cons.mp hns'
    simp only [Node.lists, Option.toList, List.append_nil, List.forall_mem_cons] at hlist
    simp only [tokensAll, tokens, List.cons_append, List.append_assoc, grouped_append,
      List.cons.injEq, true_and] at heq
    obtain ⟨hexponent, heq⟩ := hl.1.group hlist.1 heq
    obtain ⟨hrest, hts⟩ := hns.eq hrest' hts hts' heq
    rw [settledAll_subscript, settledAll_scripts, settledAll_exponent, hexponent, hsubscript, hrest]
    exact ⟨rfl, hts⟩
  case some.some.some.some =>
    obtain ⟨hsubscript, heq⟩ := hl.2.1.group hl'.2.1 heq
    simp only [List.cons.injEq, true_and] at heq
    obtain ⟨hexponent, heq⟩ := hl.1.group hl'.1 heq
    obtain ⟨hrest, hts⟩ := hns.eq hns' hts hts' heq
    rw [settledAll_scripts, settledAll_scripts, hexponent, hsubscript, hrest]
    exact ⟨rfl, hts⟩

/-- Up to a stop, the tokens of legible notation tell the settled notation. -/
theorem determined (hns : EveryNode Legible ns) : Determined ns := by
  refine (Node.induction (P := fun n => (∀ l ∈ n.lists, EveryNode Legible l) →
    ∀ l ∈ n.lists, Determined l) (Q := fun ns => EveryNode Legible ns → Determined ns)
    ?node ?nil ?cons).2 ns hns
  case node => exact fun n ih hn l hl => ih l hl (hn l hl)
  case nil =>
    refine fun _ => ⟨fun {ns' ts ts'} hns' hts hts' heq => ?_⟩
    obtain rfl := hts.eq_nil hts' hns' heq.symm
    exact ⟨rfl, heq⟩
  case cons =>
    intro n ns hn ihs hns
    refine ⟨fun {ns' ts ts'} hns' hts hts' heq => ?_⟩
    cases ns' with
    | nil => cases hts'.eq_nil hts hns heq
    | cons n' ns' =>
      obtain ⟨⟨hlegible, hlists⟩, hns⟩ := Node.everyNode_cons.mp hns
      obtain ⟨⟨hlegible', hlists'⟩, hrest'⟩ := Node.everyNode_cons.mp hns'
      have hn := hn hlists
      have ihs := ihs hns
      simp only [tokensAll, List.append_assoc] at heq
      by_cases hs : n.kind = .scripts
      · have hsort := sortOf_eq hlegible hlegible' heq
        cases n <;> simp only [Node.kind, reduceCtorEq] at hs
        cases n' <;> simp only [sortOf, Node.kind, reduceCtorEq] at hsort
        exact settledAll_scripts_inj hlegible hlegible' hn hlists' ihs hrest' hts hts' heq
      · obtain ⟨hsettled, heq⟩ := settled_inj hlegible hlegible' hn hlists' hs heq
        obtain ⟨hrest, hts⟩ := ihs.eq hrest' hts hts' heq
        exact ⟨congrArg₂ join hsettled hrest, hts⟩

/-! ## Canonical form -/

/-- Notation that has the tokens of canonical notation settles to it. -/
theorem settledAll_eq {ms : List Node} (hns : EveryNode Legible ns) (hms : Canonical ms)
    (h : tokensAll ns = tokensAll ms) : settledAll ns = ms := by
  have heq : tokensAll ns ++ [] = tokensAll ms ++ [] := by rw [h]
  obtain ⟨hsettled, -⟩ := (determined hns).eq hms.legible .nil .nil heq
  rw [hsettled, hms.settledAll]

/-- The canonical form of a text is its own canonical form just if the notation of the text is
canonical once it is settled. -/
theorem normalize_again_iff {text : String} (h : read text = .ok ns) :
    ∃ form, normalize text = .ok form ∧
      (normalize form = .ok form ↔ Canonical (settledAll ns)) := by
  have hns := legible_of_read h
  refine ⟨write ns, bind_eq_ok.mpr ⟨ns, h, rfl⟩, ?_⟩
  constructor
  · intro hform
    obtain ⟨ms, hread, hwrite⟩ := bind_eq_ok.mp hform
    have hwrite : write ms = write ns := Except.ok.inj hwrite
    have hms := legible_of_read hread
    have hcanonical : Canonical ms := (read_write_iff hms).mp (by rw [hwrite, hread])
    have htokens : tokensAll ns = tokensAll ms := by
      rw [← map_token_lex_write hns, ← map_token_lex_write hms, hwrite]
    rwa [settledAll_eq hns hcanonical htokens]
  · intro hcanonical
    have hread := (read_write_iff (legible_settledAll hns)).mpr hcanonical
    rw [write_settledAll] at hread
    exact bind_eq_ok.mpr ⟨_, hread, by rw [write_settledAll]⟩

/-- A lone exponent, which is nothing but canonical, stays as it is. -/
theorem normalize_again_exponent : read "x^2" = .ok [.atom "x", .scripts (some [.atom "2"]) none] ∧
    ∃ form, normalize "x^2" = .ok form ∧ (normalize form = .ok form ↔
      Canonical (settledAll [.atom "x", .scripts (some [.atom "2"]) none])) :=
  have h : read "x^2" = .ok [.atom "x", .scripts (some [.atom "2"]) none] := rfl
  ⟨h, normalize_again_iff h⟩

/-- A glyph does not take in the subscript behind it, but the exponent written for it does. -/
theorem normalize_glyph_then_subscript :
    normalize "x²_3" = .ok "x^{2}_{3}" ∧ normalize "x^{2}_{3}" = .ok "x_{3}^{2}" ∧
      ¬∀ text form, normalize text = .ok form → normalize form = .ok form := by
  have hfirst : normalize "x²_3" = .ok "x^{2}_{3}" := by decide +kernel
  have hsecond : normalize "x^{2}_{3}" = .ok "x_{3}^{2}" := by decide +kernel
  refine ⟨hfirst, hsecond, fun h => ?_⟩
  have hagain := h _ _ hfirst
  rw [hsecond, Except.ok.injEq] at hagain
  exact absurd hagain (by decide)

end FormulaEditor.Tex
