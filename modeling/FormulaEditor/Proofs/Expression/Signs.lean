import FormulaEditor.Proofs.Expression.Lasting

/-!
# Signs of products

Where a node that ends an operand stands directly before one that starts an operand, a times sign is
written between the two texts, unless the second one is part of a number. What is written later may
put the opening of a call between them, and whole loops around them, but takes nothing away.
-/

namespace FormulaEditor

/-- The text is part of the other one. -/
def Text.Within (s t : String) : Prop :=
  ∃ before after, t = before ++ s ++ after

namespace ExprOptions

/-- The calls that are put around operands later on, as far as their opening parens. -/
def calls (o : ExprOptions) : List String :=
  [o.powerFunction ++ "(", o.factorialFunction ++ "("]

/-- The text consists of the openings of calls. -/
def Opening (o : ExprOptions) (s : String) : Prop :=
  ∃ calls, (∀ c ∈ calls, c ∈ o.calls) ∧ s = String.join calls

end ExprOptions

namespace Node

/-- Whether an operand ends with the first of the nodes, which are listed backwards. Scripts belong
to the operand before them. -/
def endsOperand : List Node → Bool
  | atom _ :: _ | frac _ _ :: _ | radical _ _ :: _ | wrapped _ _ :: _ => true
  | paren c :: _ => !isLeftParen c
  | scripts _ _ :: before => endsOperand before
  | _ => false

/-- Whether an operand starts with the node. -/
def startsOperand : Node → Bool
  | atom text => Text.unitalicize text != "!"
  | paren c => isLeftParen c
  | function _ | frac _ _ | radical _ _ | wrapped _ _ | big _ _ _ => true
  | binary _ | scripts _ _ => false

/-- What the first of the nodes, which are listed backwards, is written as at its end, its contents
being written from the given number on. A factorial and an exponent end the call around their
operand, and a subscript has no text. -/
def endText (o : ExprOptions) (n : Nat) : List Node → String
  | [] => ""
  | node :: before =>
    match node.meaning o with
    | .piece text => (text n).1.expr
    | .bang => ")"
    | .scripts (some exponent) _ => ", (" ++ (exponent n).1.expr ++ "))"
    | .scripts none _ => endText o n before
    | .big _ _ _ => ""

/-- The base that a logarithm takes in from the scripts behind it. -/
def takenBase? (o : ExprOptions) (node : Node) (after : List Node) : Option Compilation :=
  match after.head?.map (meaning o) with
  | some (.scripts _ base) =>
    if node.kind.isFunction && node.kind.text? == some "log" then base else none
  | _ => none

/-- What the first of the nodes is written as at its start, its contents being written from the
given number on. A logarithm with a base is a call of its own, and a sum is written as its
accumulator. -/
def startText (o : ExprOptions) (n : Nat) : List Node → String
  | [] => ""
  | node :: after =>
    match node.meaning o, takenBase? o node after with
    | .piece _, some base => o.logBaseFunction ++ "(" ++ (base n).1.expr ++ ","
    | .piece text, none => (text n).1.expr
    | .big _ _ _, _ => o.accumulatorPrefix ++ toString n
    | _, _ => ""

theorem kind_of_endsOperand {node : Node} {before : List Node}
    (h : endsOperand (node :: before) = true) : node.kind.isBinary = false ∧
      node.kind.isLeftParen = false ∧ node.kind.isFunction = false ∧ node.kind.isBig = false := by
  cases node <;> simp_all [endsOperand, kind, Kind.isBinary, Kind.isLeftParen, Kind.isFunction,
    Kind.isBig]

theorem kind_of_startsOperand {node : Node} (h : node.startsOperand = true) :
    node.kind.isBinary = false ∧ node.kind.isScripts = false ∧ node.kind.isRightParen = false ∧
      node.kind.isAtomNamed "!" = false := by
  cases node <;> simp_all [startsOperand, kind, Kind.isBinary, Kind.isScripts, Kind.isRightParen,
    Kind.isAtomNamed]

theorem endsArgument_of_startsOperand {node : Node} (h : node.startsOperand = true) :
    node.kind.endsArgument = false := by
  rcases kind_of_startsOperand h with ⟨hbinary, -, hright, -⟩
  simp [Kind.endsArgument, hbinary, hright]

/-- A node that starts an operand is a sum, or has text of its own. -/
theorem meaning_of_startsOperand {o : ExprOptions} {node : Node} (h : node.startsOperand = true) :
    (∃ text, node.meaning o = .piece text) ∨
      ∃ op top bottom, node.meaning o = .big op top bottom := by
  rcases node with text | _ | _ | _ | _ | ⟨_ | _, _⟩ | _ | _ | _
  case atom =>
    have hbang : (Text.unitalicize text == "!") = false := by simpa [startsOperand] using h
    rw [meaning, hbang]
    exact .inl ⟨_, rfl⟩
  case binary | scripts => cases h
  case big => exact .inr ⟨_, _, _, rfl⟩
  all_goals exact .inl ⟨_, rfl⟩

theorem takenBase?_eq_some {o : ExprOptions} {node : Node} {after : List Node} {base : Compilation}
    (h : takenBase? o node after = some base) :
    (∃ name, node = .function name ∧ Text.unitalicize name = "log" ∧ name.isEmpty = false) ∧
      ∃ scripts rest exponent, after = scripts :: rest ∧
        scripts.meaning o = .scripts exponent (some base) := by
  unfold takenBase? at h
  split at h
  · rename_i exponent base' hhead
    split at h
    · rename_i hlog
      subst h
      refine ⟨Progress.eq_log_of_afterLog (q := .start 0) ?_, ?_⟩
      · simpa [Progress.afterLog] using hlog
      · cases after with
        | nil => cases hhead
        | cons scripts rest => exact ⟨scripts, rest, exponent, rfl, Option.some.inj hhead⟩
    · cases h
  · cases h

end Node

/-! ## Texts in a row -/

/-- The last tokens, last one first, are the given texts, but for openings of calls among them. An
empty text is no token. -/
inductive Spelled (calls : List String) : List String → List String → Prop
  | nil (tokens : List String) : Spelled calls [] tokens
  | text {ts tokens : List String} (t : String) (h : Spelled calls ts tokens) :
    Spelled calls (t :: ts) (t :: tokens)
  | blank {ts tokens : List String} (h : Spelled calls ts tokens) : Spelled calls ("" :: ts) tokens
  | call {ts tokens : List String} {c : String} (hc : c ∈ calls) (h : Spelled calls ts tokens) :
    Spelled calls ts (c :: tokens)

section Rows

variable {o : ExprOptions} {s t u c before after : String} {ts tokens inner outer : List String}
  {f : Frame}

namespace Text.Within

theorem append_left (h : Within s t) (u : String) : Within s (u ++ t) := by
  rcases h with ⟨before, after, rfl⟩
  exact ⟨u ++ before, after, by simp only [String.append_assoc]⟩

theorem append_right (h : Within s t) (u : String) : Within s (t ++ u) := by
  rcases h with ⟨before, after, rfl⟩
  exact ⟨before, after ++ u, by simp only [String.append_assoc]⟩

end Text.Within

namespace Spelled

theorem push (h : Spelled o.calls ts f.tokens) (t : String) :
    Spelled o.calls (t :: ts) (f.push t).tokens := by
  unfold Frame.push
  split
  · obtain rfl : t = "" := by simpa using ‹t.isEmpty = true›
    exact .blank h
  · exact .text t h

theorem add (h : Spelled o.calls ts f.tokens) (e : Expression) :
    Spelled o.calls (e.expr :: ts) (f.add e).tokens :=
  push (f := f.pushBody e.body) h e.expr

/-- One more opening of a call does not matter. -/
theorem insert (h : Spelled o.calls ts (inner ++ outer)) (hc : c ∈ o.calls) :
    Spelled o.calls ts (inner ++ c :: outer) := by
  generalize hall : inner ++ outer = tokens at h
  induction h generalizing inner with
  | nil => exact .nil _
  | text t h ih =>
    cases inner with
    | nil =>
      rw [List.nil_append] at hall ⊢
      rw [hall]
      exact .call hc (.text t h)
    | cons i inner =>
      rw [List.cons_append, List.cons.injEq] at hall
      rcases hall with ⟨rfl, hall⟩
      exact .text i (ih hall)
  | blank h ih => exact .blank (ih hall)
  | call hc' h ih =>
    cases inner with
    | nil =>
      rw [List.nil_append] at hall ⊢
      rw [hall]
      exact .call hc (.call hc' h)
    | cons i inner =>
      rw [List.cons_append, List.cons.injEq] at hall
      rcases hall with ⟨rfl, hall⟩
      exact .call hc' (ih hall)

/-- The texts joined: the last one, and openings of calls, stand behind the others. -/
theorem join (h : Spelled o.calls (t :: ts) tokens) : ∃ rest c, Spelled o.calls ts rest ∧
    o.Opening c ∧ String.join tokens.reverse = String.join rest.reverse ++ t ++ c := by
  generalize hall : t :: ts = all at h
  induction h with
  | nil => cases hall
  | @text _ tokens t h =>
    cases hall
    exact ⟨tokens, "", h, ⟨[], by simp, rfl⟩, by simp [String.join_append]⟩
  | @blank _ tokens h =>
    cases hall
    exact ⟨tokens, "", h, ⟨[], by simp, rfl⟩, by simp⟩
  | @call _ tokens c hc h ih =>
    rcases ih hall with ⟨rest, d, hrest, ⟨calls, hcalls, rfl⟩, hjoin⟩
    refine ⟨rest, String.join (calls ++ [c]), hrest, ⟨calls ++ [c], ?_, rfl⟩, ?_⟩
    · intro x hx
      rcases List.mem_append.mp hx with hx | hx
      · exact hcalls x hx
      · rw [List.mem_singleton.mp hx]
        exact hc
    · simp [String.join_append, hjoin, String.append_assoc]

end Spelled

end Rows

/-! ## What is seen between two operands -/

section Seeing

variable {o : ExprOptions} {first sign : String} {second : String → Prop} {s : String} {f : Frame}

/-- The first text, the sign and a second text, but for openings of calls between them. -/
def SignRow (o : ExprOptions) (first sign : String) (second : String → Prop) (s : String) : Prop :=
  ∃ c c' t, o.Opening c ∧ o.Opening c' ∧ second t ∧ s = first ++ c ++ sign ++ c' ++ t

/-- The row is part of the frame's statements, or among its tokens. -/
def Frame.SeesSign (o : ExprOptions) (first sign : String) (second : String → Prop) (f : Frame) :
    Prop :=
  (∃ s, SignRow o first sign second s ∧ Text.Within s f.body) ∨
    ∃ t later rest, second t ∧ f.tokens = later ++ rest ∧ Spelled o.calls [t, sign, first] rest

/-- The sign is the last token of the frame, and an accumulator is one of the second texts. -/
def Frame.AwaitsAccumulator (o : ExprOptions) (first sign : String) (second : String → Prop)
    (f : Frame) : Prop :=
  (∀ n : Nat, second (o.accumulatorPrefix ++ toString n)) ∧ Spelled o.calls [sign, first] f.tokens

namespace Frame.SeesSign

theorem push (h : f.SeesSign o first sign second) (token : String) :
    (f.push token).SeesSign o first sign second := by
  unfold Frame.push
  split
  · exact h
  · rcases h with h | ⟨t, later, rest, ht, hf, hrest⟩
    · exact .inl h
    · exact .inr ⟨t, token :: later, rest, ht, by simp [hf], hrest⟩

theorem pushBody (h : f.SeesSign o first sign second) (body : String) :
    (f.pushBody body).SeesSign o first sign second := by
  rcases h with ⟨s, hs, hwithin⟩ | h
  · exact .inl ⟨s, hs, hwithin.append_right body⟩
  · exact .inr h

theorem wrapOperand {before : String} (h : f.SeesSign o first sign second) (hc : before ∈ o.calls)
    (after : String) : (f.wrapOperand before after).SeesSign o first sign second := by
  rcases h with h | ⟨t, later, rest, ht, hf, hrest⟩
  · exact .inl h
  · refine .inr ?_
    simp only [Frame.wrapOperand]
    generalize operandLength 0 f.tokens = size
    by_cases hsize : size ≤ later.length
    · -- The call opens among the tokens behind the row.
      refine ⟨t, after :: later.take size ++ before :: later.drop size, rest, ht, ?_, hrest⟩
      rw [hf, List.take_append_of_le_length hsize, List.drop_append_of_le_length hsize]
      simp
    · refine ⟨t, after :: later, rest.take (size - later.length) ++
        before :: rest.drop (size - later.length), ht, ?_, ?_⟩
      · rw [hf, List.take_append, List.drop_append, List.take_of_length_le (by omega),
          List.drop_of_length_le (by omega)]
        simp
      · refine Spelled.insert ?_ hc
        rwa [List.take_append_drop]

/-- In a finished frame the row is part of one of the texts. -/
theorem finish (h : f.SeesSign o first sign second) : ∃ s, SignRow o first sign second s ∧
    (Text.Within s f.finish.body ∨ Text.Within s f.finish.expr) := by
  rcases h with ⟨s, hs, hwithin⟩ | ⟨t, later, rest, ht, hf, hrest⟩
  · exact ⟨s, hs, .inl hwithin⟩
  · rcases hrest.join with ⟨rest₂, c₂, hrest₂, hc₂, hjoin₂⟩
    rcases hrest₂.join with ⟨rest₁, c₁, hrest₁, hc₁, hjoin₁⟩
    rcases hrest₁.join with ⟨rest₀, c₀, -, hc₀, hjoin₀⟩
    refine ⟨_, ⟨c₀, c₁, t, hc₀, hc₁, ht, rfl⟩, .inr ?_⟩
    refine ⟨String.join rest₀.reverse, c₂ ++ String.join later.reverse, ?_⟩
    simp [Frame.finish, hf, String.join_append, hjoin₂, hjoin₁, hjoin₀, String.append_assoc]

/-- What is part of a loop's argument is part of the loop. -/
theorem within_loopText {op : BigOp} {name : String} {init last argument : Expression}
    (h : Text.Within s argument.body ∨ Text.Within s argument.expr) :
    Text.Within s (OpenSum.loopText op name init last argument).body := by
  unfold OpenSum.loopText
  rcases h with h | h
  · iterate 7 refine Text.Within.append_right ?_ _
    exact h.append_left _
  · exact (h.append_left _).append_right _

end Frame.SeesSign

/-- The row outlasts what is done to frames, and one that lacks an accumulator gets it. -/
theorem lasts_seesSign (o : ExprOptions) (first sign : String) (second : String → Prop) :
    Frame.Lasts o (Frame.SeesSign o first sign second)
      (Frame.AwaitsAccumulator o first sign second) where
  push h token := h.push token
  pushBody h body := h.pushBody body
  power h after := h.wrapOperand (by simp [ExprOptions.calls]) after
  factorial h after := h.wrapOperand (by simp [ExprOptions.calls]) after
  fold h n outer := by
    rcases h.finish with ⟨s, hs, hwithin⟩
    refine .inl ⟨s, hs, ?_⟩
    rw [Frame.body_add]
    exact (Frame.SeesSign.within_loopText hwithin).append_left _
  complete h s n :=
    .inr ⟨_, [], _, h.1 _, rfl, h.2.add (OpenSum.fold o s n).1⟩

end Seeing

namespace Progress

variable {o : ExprOptions} {p : Progress} {kind : Kind} {node : Node} {before : List Node} {n : Nat}

@[simp] theorem current_countParen : (p.countParen kind).current = p.current := by
  rw [countParen_eq]
  obtain ⟨_, _, _ | _, _, _⟩ := p <;> rfl

/-- A node that ends an operand was written last, and the given text with it. -/
structure Ended (o : ExprOptions) (p : Progress) (text : String) : Prop where
  previous : ∃ kind, p.previous = some kind ∧ kind.isBinary = false ∧ kind.isLeftParen = false ∧
    kind.isFunction = false ∧ kind.isBig = false
  spelled : Spelled o.calls [text] p.current.tokens

namespace Ended

variable {text : String} (h : p.Ended o text)

include h

theorem afterLog : p.afterLog = false := by
  rcases h.previous with ⟨kind, hprev, -, -, hfun, -⟩
  simp [Progress.afterLog, hprev, hfun]

/-- No paren is opened after an operand, and a node that ends no argument closes none. -/
theorem adjustImplicit_separate (hkind : kind.endsArgument = false) :
    (p.separate kind).adjustImplicit kind = p.separate kind := by
  rcases h.previous with ⟨before, hprev, -, -, hfun, -⟩
  simp [Progress.adjustImplicit, hprev, hfun, hkind]

end Ended

/-- Text of a node's own is written last. -/
theorem spelled_emit (p : Progress) (kind : Kind) (text : Compilation) :
    ∃ k, Spelled o.calls [(text k).1.expr] (p.emit o kind text).current.tokens := by
  refine ⟨(p.beforeText o kind).counter, ?_⟩
  rw [emit_eq, current_countParen]
  show Spelled o.calls _ (Progress.modifyFrame _ _).current.tokens
  rw [current_modifyFrame]
  exact Spelled.add (.nil _) _

theorem advance_of_no_scripts (hm : ∀ exponent base, node.meaning o ≠ .scripts exponent base) :
    p.advance o node.kind (node.meaning o) =
      { ((p.separate node.kind).adjustImplicit node.kind).apply o node.kind (node.meaning o) with
        previous := some node.kind } := by
  rcases advance_eq o p node with ⟨_, _, hscripts, _, _⟩ | ⟨_, heq⟩
  · exact absurd hscripts (hm _ _)
  · exact heq

/-- An exponent, or a subscript that is not the base of a logarithm. -/
theorem Ended.advance_scripts {text : String} {exponent base : Option Compilation}
    (h : p.Ended o text) (hm : node.meaning o = .scripts exponent base) :
    p.advance o node.kind (node.meaning o) =
      { p.apply o .scripts (.scripts exponent base) with previous := some .scripts } := by
  have hkind := Node.kind_of_meaning_scripts hm
  rcases advance_eq o p node with ⟨_, _, _, hlog, _⟩ | ⟨_, heq⟩
  · rw [h.afterLog] at hlog
    cases hlog
  · rw [heq, hkind, hm, h.adjustImplicit_separate rfl, separate_scripts]

/-- Wherever operands end, the text of the last one is written last. -/
theorem ended_writeAll (hends : Node.endsOperand before = true) :
    ∃ k, (Node.writeAll o before.reverse (start n)).Ended o (Node.endText o k before) := by
  induction before with
  | nil => cases hends
  | cons node before ih =>
    rw [List.reverse_cons, writeAll_append]
    generalize Node.writeAll o before.reverse (start n) = p at ih
    show ∃ k, (p.advance o node.kind (node.meaning o)).Ended o _
    have hprev := Node.kind_of_endsOperand hends
    cases hm : node.meaning o with
    | scripts exponent base =>
      -- What the scripts belong to ends an operand as well.
      have hbefore : Node.endsOperand before = true := by
        have hkind := Node.kind_of_meaning_scripts hm
        cases node <;> simp_all [Node.kind, Node.endsOperand]
      rcases ih hbefore with ⟨k, h⟩
      rw [← hm, h.advance_scripts hm]
      cases exponent with
      | none =>
        refine ⟨k, ⟨.scripts, rfl, rfl, rfl, rfl, rfl⟩, ?_⟩
        rw [Node.endText, hm]
        exact h.spelled
      | some exponent =>
        refine ⟨p.counter, ⟨.scripts, rfl, rfl, rfl, rfl, rfl⟩, ?_⟩
        rw [Node.endText, hm, Progress.apply, raise_eq]
        show Spelled o.calls _ (Progress.modifyFrame _ _).current.tokens
        rw [current_modifyFrame]
        exact .text _ (.nil _)
    | big op top bottom =>
      have hkind : node.kind = .big op := by simpa [hm, Meaning.Suits] using node.meaning_suits o
      rw [hkind] at hprev
      cases hprev.2.2.2
    | bang =>
      rw [← hm, advance_of_no_scripts (by simp [hm]), hm]
      refine ⟨0, ⟨node.kind, rfl, hprev⟩, ?_⟩
      rw [Node.endText, hm]
      show Spelled o.calls _ (Progress.modifyFrame _ _).current.tokens
      rw [current_modifyFrame]
      exact .text _ (.nil _)
    | piece text =>
      rw [← hm, advance_of_no_scripts (by simp [hm]), hm]
      rcases spelled_emit _ node.kind text with ⟨k, hk⟩
      refine ⟨k, ⟨node.kind, rfl, hprev⟩, ?_⟩
      rw [Node.endText, hm]
      exact hk

/-! ## The sign -/

/-- Behind an operand a sign is written before a node that starts one, unless it is part of a
number. -/
theorem Ended.spelled_separate {text : String} (h : p.Ended o text)
    (hstarts : node.startsOperand = true) :
    Spelled o.calls [if node.kind.isNumberPart then "" else "*", text]
      (p.separate node.kind).current.tokens := by
  rcases h.previous with ⟨kind, hprev, hbinary, hleft, hfun, hbig⟩
  have hsign : impliesProduct kind node.kind = !node.kind.isNumberPart := by
    rcases Node.kind_of_startsOperand hstarts with ⟨hbinary', hscripts, hright, hbang⟩
    simp [impliesProduct, hbinary, hleft, hfun, hbig, hbinary', hscripts, hright, hbang]
  unfold Progress.separate
  rw [hprev, Option.any_some, hsign]
  cases hnumber : node.kind.isNumberPart with
  | true => exact .blank h.spelled
  | false =>
    show Spelled o.calls _ (Progress.modifyFrame _ _).current.tokens
    rw [current_modifyFrame]
    exact h.spelled.push "*"

/-- A node that starts an operand is written right behind the sign. -/
theorem Ended.advance_starts {text : String} (h : p.Ended o text)
    (hstarts : node.startsOperand = true) :
    p.advance o node.kind (node.meaning o) =
      { (p.separate node.kind).apply o node.kind (node.meaning o) with
        previous := some node.kind } := by
  have hno : ∀ exponent base, node.meaning o ≠ .scripts exponent base := by
    intro exponent base hm
    rcases Node.meaning_of_startsOperand (o := o) hstarts with ⟨_, hpiece⟩ | ⟨_, _, _, hbig⟩
    · rw [hm] at hpiece
      cases hpiece
    · rw [hm] at hbig
      cases hbig
  have hends := Node.endsArgument_of_startsOperand hstarts
  rw [advance_of_no_scripts hno, h.adjustImplicit_separate hends]

/-- Without the logarithm's name, the sign is written last. -/
theorem Ended.spelled_log {first name : String} (h : p.Ended o first)
    (hname : Text.unitalicize name = "log") (hne : name.isEmpty = false) :
    let log := Node.function name
    let q := p.advance o log.kind (log.meaning o)
    q.afterLog = true ∧
      Spelled o.calls [if log.kind.isNumberPart then "" else "*", first] q.current.pop.tokens := by
  intro log q
  have hstarts : log.startsOperand = true := rfl
  have hq : q = { (p.separate log.kind).modifyFrame (·.push name) with
      previous := some log.kind } := by
    have hname : (p.separate log.kind).apply o log.kind (log.meaning o) =
        (p.separate log.kind).modifyFrame (·.push name) := apply_function
    rw [← hname]
    exact h.advance_starts hstarts
  have hcurrent : q.current = (p.separate log.kind).current.push name := by
    rw [hq]
    exact current_modifyFrame
  constructor
  · have hprev : q.previous = some log.kind := congrArg Progress.previous hq
    simp [Progress.afterLog, hprev, log, Node.kind, Kind.isFunction, Kind.text?, hname]
  · rw [hcurrent]
    simpa [Frame.push, Frame.pop, hne] using h.spelled_separate hstarts

/-- The base behind a logarithm takes the place of its name. -/
theorem advance_base {scripts : Node} {exponent : Option Compilation} {base : Compilation}
    (hlog : p.afterLog = true) (hm : scripts.meaning o = .scripts exponent (some base)) :
    p.advance o scripts.kind (scripts.meaning o) = p.takeBase o base := by
  have hkind := Node.kind_of_meaning_scripts hm
  rcases advance_eq o p scripts with ⟨exponent', base', hm', -, heq⟩ | ⟨hno, -⟩
  · rw [hm] at hm'
    cases hm'
    rw [heq, hkind, separate_scripts]
  · have hsub : scripts.hasSubscript = true := Node.hasSubscript_iff.mpr ⟨exponent, base, hm⟩
    rw [hsub, hlog] at hno
    cases hno

theorem current_takeBase {base : Compilation} : (p.takeBase o base).current = p.current.pop.add
    ⟨(base p.counter).1.body, o.logBaseFunction ++ "(" ++ (base p.counter).1.expr ++ ","⟩ := by
  rw [takeBase_eq]
  show (Progress.modifyFrame _ _).current = _
  rw [current_modifyFrame, current_modifyFrame]

/-- Text that ends no argument goes to the frame as it is. -/
theorem current_emit {text : Compilation} (hkind : kind.endsArgument = false) :
    (p.emit o kind text).current = p.current.add (text p.counter).1 := by
  have hbefore : p.beforeText o kind = p := by simp [beforeText, hkind]
  rw [emit_eq, current_countParen, hbefore]
  exact current_modifyFrame

/-- With the sign before it, the node's text completes the row, or a sum waits for its accumulator.
-/
theorem Ended.shown_advance {first : String} (h : p.Ended o first)
    (hstarts : node.startsOperand = true) (second : String → Prop)
    (hpiece : ∀ text k, node.meaning o = .piece text → second (text k).1.expr)
    (hbig : ∀ op top bottom, node.meaning o = .big op top bottom →
      ∀ k : Nat, second (o.accumulatorPrefix ++ toString k)) :
    Shown (Frame.SeesSign o first (if node.kind.isNumberPart then "" else "*") second)
      (Frame.AwaitsAccumulator o first (if node.kind.isNumberPart then "" else "*") second)
      (p.advance o node.kind (node.meaning o)).frames := by
  have hsign := h.spelled_separate hstarts
  rw [h.advance_starts hstarts]
  generalize p.separate node.kind = q at hsign
  rcases Node.meaning_of_startsOperand (o := o) hstarts with ⟨text, hm⟩ | ⟨op, top, bottom, hm⟩
  · rw [hm]
    refine shown_of_current (.inr ⟨_, [], _, hpiece text q.counter hm, rfl, ?_⟩)
    show Spelled o.calls _ (q.emit o node.kind text).current.tokens
    rw [current_emit (Node.endsArgument_of_startsOperand hstarts)]
    exact hsign.add _
  · rw [hm]
    exact .inr ⟨q.current, List.mem_of_mem_head? head?_frames, hbig op top bottom hm, hsign⟩

/-- Whatever comes behind the node, the row stays. -/
theorem Ended.shown_row {first : String} (h : p.Ended o first)
    (hstarts : node.startsOperand = true) (after : List Node) :
    Shown (Frame.SeesSign o first (if node.kind.isNumberPart then "" else "*")
        fun t => ∃ k, t = Node.startText o k (node :: after))
      (Frame.AwaitsAccumulator o first (if node.kind.isNumberPart then "" else "*")
        fun t => ∃ k, t = Node.startText o k (node :: after))
      (Node.writeAll o (node :: after) p).frames := by
  cases hbase : Node.takenBase? o node after with
  | none =>
    have hshown := h.shown_advance hstarts
      (fun t => ∃ k, t = Node.startText o k (node :: after))
      (fun text k hm => ⟨k, by rw [Node.startText, hm, hbase]⟩)
      (fun op top bottom hm k => ⟨k, by rw [Node.startText, hm]⟩)
    refine shown_writeAll (lasts_seesSign ..) hshown fun next hnext hafter => ?_
    -- The scripts behind a logarithm would be its base.
    rw [Bool.and_eq_true] at hafter
    rcases (Node.hasSubscript_iff (o := o)).mp hafter.1 with ⟨exponent, base, hscripts⟩
    have hlog : (node.kind.isFunction && node.kind.text? == some "log") = true := by
      have hlog := hafter.2
      rwa [h.advance_starts hstarts] at hlog
    simp only [Node.takenBase?, Option.mem_def.mp hnext, Option.map_some, hscripts, hlog] at hbase
    cases hbase
  | some base =>
    rcases Node.takenBase?_eq_some hbase with
      ⟨⟨name, rfl, hname, hne⟩, scripts, rest, exponent, rfl, hm⟩
    rcases h.spelled_log hname hne with ⟨hlog, hsign⟩
    rw [Node.writeAll, Node.writeAll, advance_base hlog hm]
    generalize Progress.advance o p _ _ = q at hlog hsign
    have hcall := hsign.add ⟨(base q.counter).1.body,
      o.logBaseFunction ++ "(" ++ (base q.counter).1.expr ++ ","⟩
    rw [← current_takeBase] at hcall
    have hstart : o.logBaseFunction ++ "(" ++ (base q.counter).1.expr ++ "," =
        Node.startText o q.counter (.function name :: scripts :: rest) := by
      rw [Node.startText, hbase]
      rfl
    have hrow : Frame.SeesSign o first (if (Node.function name).kind.isNumberPart then "" else "*")
        (fun t => ∃ k, t = Node.startText o k (.function name :: scripts :: rest))
        (q.takeBase o base).current := .inr ⟨_, [], _, ⟨q.counter, hstart⟩, rfl, hcall⟩
    refine Progress.shown_writeAll (lasts_seesSign ..) (shown_of_current hrow) fun _ _ hafter => ?_
    rw [takeBase_eq] at hafter
    simp [Progress.afterLog] at hafter

end Progress

namespace Node

/-- The expression before its integers are written as floats. -/
def unpromoted (o : ExprOptions) (nodes : List Node) (n : Nat) : Expression :=
  ((writeAll o nodes (.start n)).close o).root.finish

/-- Where the node that a list goes on with starts an operand, directly behind one that ends an
operand, the text of the list has the end of the one, a sign, and the start of the other, with
nothing but openings of calls between them. The sign is a times sign unless the second node is part
of a number. -/
theorem compile_sign (o : ExprOptions) (n : Nat) (before : List Node) (e d : Node) (after : List Node)
    (he : endsOperand (e :: before.reverse) = true) (hd : d.startsOperand = true) :
    let raw := unpromoted o (before ++ e :: d :: after) n
    (compile o (before ++ e :: d :: after) n).1 = raw.written o ∧
      ∃ k k' c c', o.Opening c ∧ o.Opening c' ∧
        let row := endText o k (e :: before.reverse) ++ c ++
          (if d.kind.isNumberPart then "" else "*") ++ c' ++ startText o k' (d :: after)
        Text.Within row raw.body ∨ Text.Within row raw.expr := by
  refine ⟨rfl, ?_⟩
  rcases Progress.ended_writeAll (o := o) (n := n) he with ⟨k, hended⟩
  have hshown := hended.shown_row hd after
  have hseen := Progress.seen_close (lasts_seesSign ..) hshown
  rcases hseen.finish with ⟨_, ⟨c, c', _, hc, hc', ⟨k', rfl⟩, rfl⟩, hwithin⟩
  refine ⟨k, k', c, c', hc, hc', ?_⟩
  have hsplit : writeAll o (before ++ e :: d :: after) (.start n) =
      writeAll o (d :: after) (writeAll o (e :: before.reverse).reverse (.start n)) := by
    rw [← Progress.writeAll_append]
    simp
  rw [unpromoted, hsplit]
  exact hwithin

/-- A function name behind a power. -/
theorem compile_sign_behind_power :
    let x := Node.atom "x"
    let squared := Node.scripts (some [.atom "2"]) none
    let sine := Node.function "sin"
    endsOperand [squared, x] = true ∧ sine.startsOperand = true ∧
      (compile .standard [x, squared, sine, .atom "y"] 0).1 = ⟨"", "mypow(x, (2.0))*sin(y)"⟩ ∧
      let raw := unpromoted .standard [x, squared, sine, .atom "y"] 0
      ∃ k k' c c', ExprOptions.standard.Opening c ∧ ExprOptions.standard.Opening c' ∧
        let row := endText .standard k [squared, x] ++ c ++ "*" ++ c' ++
          startText .standard k' [sine, .atom "y"]
        Text.Within row raw.body ∨ Text.Within row raw.expr :=
  ⟨rfl, rfl, by decide +kernel,
    (compile_sign .standard 0 [.atom "x"] (.scripts (some [.atom "2"]) none) (.function "sin")
      [.atom "y"] rfl rfl).2⟩

/-- Between a letter and a digit there is no sign. -/
theorem compile_digit_behind_letter :
    Tex.read "x2" = .ok [.atom "x", .atom "2"] ∧
      endsOperand [.atom "x"] = true ∧ (Node.atom "2").startsOperand = true ∧
      (Node.atom "x").kind.isNumberPart = false ∧
      compile .standard [.atom "x", .atom "2"] 0 = (⟨"", "x2"⟩, 0) :=
  ⟨rfl, rfl, rfl, rfl, by decide +kernel⟩

end Node

end FormulaEditor
