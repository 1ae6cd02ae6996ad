import FormulaEditor.Proofs.Expression.Steps

/-!
# Two expressions in the making

Two expressions in the making are related if they are the same but for one of the frames that they
are written into, and the two versions of that frame are related. Whatever node is written to both,
they stay related, as long as the relation of frames outlasts what is done to a single frame.
-/

namespace FormulaEditor

/-- What is done to one frame keeps the relation. -/
structure Frame.Kept (r : Frame → Frame → Prop) : Prop where
  push : ∀ {f g : Frame}, r f g → ∀ token, r (f.push token) (g.push token)
  pushBody : ∀ {f g : Frame}, r f g → ∀ body, r (f.pushBody body) (g.pushBody body)
  pop : ∀ {f g : Frame}, r f g → (∀ token ∈ f.tokens.head?, ParenFree token) →
    (∀ token ∈ g.tokens.head?, ParenFree token) → r f.pop g.pop
  wrapOperand : ∀ {f g : Frame}, r f g → ∀ before after,
    r (f.wrapOperand before after) (g.wrapOperand before after)

theorem Frame.Kept.add {r : Frame → Frame → Prop} (hr : Frame.Kept r) {f g : Frame} (h : r f g)
    (e : Expression) : r (f.add e) (g.add e) :=
  hr.push (hr.pushBody h e.body) e.expr

namespace Progress

variable {r : Frame → Frame → Prop} {t : OpenSum → OpenSum → Prop}

/-- The frames are the same but for the one outside of all sums or that of one sum. -/
inductive FramesRelated (r : Frame → Frame → Prop) (t : OpenSum → OpenSum → Prop) :
    Frame × List OpenSum → Frame × List OpenSum → Prop
  | root {root root' : Frame} (sums : List OpenSum) (h : r root root') :
    FramesRelated r t (root, sums) (root', sums)
  | sum (root : Frame) (inner : List OpenSum) {s s' : OpenSum} (outer : List OpenSum)
    (h : t s s') : FramesRelated r t (root, inner ++ s :: outer) (root, inner ++ s' :: outer)

/-- The expressions in the making are the same but for one frame. -/
structure Related (r : Frame → Frame → Prop) (t : OpenSum → OpenSum → Prop) (p q : Progress) :
    Prop where
  previous : p.previous = q.previous
  frames : FramesRelated r t (p.root, p.sums) (q.root, q.sums)
  implicit : p.implicit = q.implicit
  counter : p.counter = q.counter

/-- What closing sums leaves is the same but for one frame. -/
def SettledRelated (r : Frame → Frame → Prop) (t : OpenSum → OpenSum → Prop)
    (a b : List OpenSum × Frame × Nat) : Prop :=
  FramesRelated r t (a.2.1, a.1) (b.2.1, b.1) ∧ a.2.2 = b.2.2

/-- What is done to one frame, or to one sum up to closing it, keeps the relations. -/
structure Kept (o : ExprOptions) (r : Frame → Frame → Prop) (t : OpenSum → OpenSum → Prop) :
    Prop extends Frame.Kept r where
  depth : ∀ {s s' : OpenSum}, t s s' → s.depth = s'.depth
  setDepth : ∀ {s s' : OpenSum}, t s s' → ∀ depth, t { s with depth } { s' with depth }
  modify : ∀ {s s' : OpenSum}, t s s' → ∀ change : Frame → Frame,
    (r s.frame s'.frame → r (change s.frame) (change s'.frame)) →
      t { s with frame := change s.frame } { s' with frame := change s'.frame }
  settle : ∀ {s s' : OpenSum}, t s s' → ∀ balancedOnly root n outer,
    SettledRelated r t (settle o balancedOnly (s.fold o n).1 root (s.fold o n).2 outer)
      (settle o balancedOnly (s'.fold o n).1 root (s'.fold o n).2 outer)

variable {o : ExprOptions} {p q : Progress} {kind : Kind} {meaning : Meaning}

theorem FramesRelated.settle {root root' : Frame} {sums sums' : List OpenSum}
    (h : FramesRelated r t (root, sums) (root', sums')) (hk : Kept o r t) (balancedOnly : Bool)
    (e : Expression) (n : Nat) : SettledRelated r t (settle o balancedOnly e root n sums)
      (settle o balancedOnly e root' n sums') := by
  cases h with
  | root sums h =>
    induction sums generalizing e n with
    | nil => exact ⟨.root [] (hk.add h e), rfl⟩
    | cons s rest ih =>
      rw [settle_cons, settle_cons]
      split
      · exact ⟨.root _ h, rfl⟩
      · exact ih _ _
  | @sum _ inner s s' outer h =>
    induction inner generalizing e n with
    | nil =>
      have htaken := hk.modify h (·.add e) fun hframe => hk.add hframe e
      have hopen : (balancedOnly && s.depth != 0) = (balancedOnly && s'.depth != 0) := by
        rw [hk.depth h]
      simp only [List.nil_append]
      rw [settle_cons, settle_cons, hopen]
      split
      · exact ⟨.sum root [] outer htaken, rfl⟩
      · exact hk.settle htaken balancedOnly root n outer
    | cons i inner ih =>
      simp only [List.cons_append]
      rw [settle_cons, settle_cons]
      split
      · exact ⟨.sum root (_ :: inner) outer h, rfl⟩
      · exact ih _ _

namespace Related

variable (h : p.Related r t q)

include h

theorem setPrevious (previous : Option Kind) :
    Related r t { p with previous } { q with previous } :=
  { h with previous := rfl }

theorem setImplicit (implicit : Nat) : Related r t { p with implicit } { q with implicit } :=
  { h with implicit := rfl }

theorem setCounter (counter : Nat) : Related r t { p with counter } { q with counter } :=
  { h with counter := rfl }

variable (hk : Kept o r t)

include hk

theorem modifyFrame (change : Frame → Frame)
    (hchange : r p.current q.current → r (change p.current) (change q.current)) :
    (p.modifyFrame change).Related r t (q.modifyFrame change) := by
  obtain ⟨previous, root, sums, implicit, counter⟩ := p
  obtain ⟨previous', root', sums', implicit', counter'⟩ := q
  obtain ⟨hprevious, hframes, himplicit, hcounter⟩ := h
  cases hframes with
  | root sums h =>
    cases sums with
    | nil => exact ⟨hprevious, .root [] (hchange h), himplicit, hcounter⟩
    | cons s rest => exact ⟨hprevious, .root _ h, himplicit, hcounter⟩
  | sum root inner outer h =>
    cases inner with
    | nil =>
      exact ⟨hprevious, .sum root [] outer (hk.modify h change hchange), himplicit, hcounter⟩
    | cons i inner => exact ⟨hprevious, .sum root (_ :: inner) outer h, himplicit, hcounter⟩

theorem push (token : String) : (p.push token).Related r t (q.push token) :=
  h.modifyFrame hk _ fun hframe => hk.push hframe token

theorem add (e : Expression) : (p.add e).Related r t (q.add e) :=
  h.modifyFrame hk _ fun hframe => hk.add hframe e

theorem separate (kind : Kind) : (p.separate kind).Related r t (q.separate kind) := by
  unfold Progress.separate
  rw [h.previous]
  split
  · exact h.push hk "*"
  · exact h

theorem adjustImplicit (kind : Kind) :
    (p.adjustImplicit kind).Related r t (q.adjustImplicit kind) := by
  unfold Progress.adjustImplicit closeImplicit
  rw [h.previous, h.implicit]
  split
  · exact (h.push hk "(").setImplicit _
  · split
    · exact (h.push hk _).setImplicit _
    · exact h

theorem closeSums (balancedOnly : Bool) :
    (p.closeSums o balancedOnly).Related r t (q.closeSums o balancedOnly) := by
  obtain ⟨hframes, hcounter⟩ := h.frames.settle hk balancedOnly .blank p.counter
  unfold Progress.closeSums
  rw [← h.counter]
  exact ⟨h.previous, hframes, h.implicit, hcounter⟩

theorem close : (p.close o).Related r t (q.close o) := by
  unfold Progress.close
  rw [h.implicit]
  exact (h.push hk _).closeSums hk false

theorem countParen (kind : Kind) : (p.countParen kind).Related r t (q.countParen kind) := by
  obtain ⟨previous, root, sums, implicit, counter⟩ := p
  obtain ⟨previous', root', sums', implicit', counter'⟩ := q
  obtain ⟨hprevious, hframes, himplicit, hcounter⟩ := h
  rw [countParen_eq, countParen_eq]
  cases hframes with
  | root sums h => exact ⟨hprevious, .root _ h, himplicit, hcounter⟩
  | @sum root inner s s' outer h =>
    cases inner with
    | nil =>
      have hbehind : t { s with depth := openBehind kind s.depth }
          { s' with depth := openBehind kind s'.depth } := by
        rw [hk.depth h]
        exact hk.setDepth h _
      exact ⟨hprevious, .sum root [] outer hbehind, himplicit, hcounter⟩
    | cons i inner => exact ⟨hprevious, .sum root (_ :: inner) outer h, himplicit, hcounter⟩

theorem beforeText (kind : Kind) : (p.beforeText o kind).Related r t (q.beforeText o kind) := by
  unfold Progress.beforeText
  split
  · exact h.closeSums hk true
  · exact h

theorem takeBase (hp : p.Logged) (hq : q.Logged) (hlog : p.afterLog = true)
    (hlog' : q.afterLog = true) (base : Compilation) :
    (p.takeBase o base).Related r t (q.takeBase o base) := by
  have hpop : (p.modifyFrame Frame.pop).Related r t (q.modifyFrame Frame.pop) :=
    h.modifyFrame hk _ fun hframe => hk.pop hframe (hp.parenFree hlog) (hq.parenFree hlog')
  rw [takeBase_eq, takeBase_eq, h.counter, h.implicit]
  exact (((hpop.add hk _).setImplicit _).setPrevious none).setCounter _

theorem apply (kind : Kind) (meaning : Meaning) :
    (p.apply o kind meaning).Related r t (q.apply o kind meaning) := by
  rcases meaning with ⟨_ | exponent, base⟩ | _ | ⟨op, top, bottom⟩ | text
  · exact h
  · simp only [Progress.apply, raise_eq, h.counter]
    exact (h.modifyFrame hk _ fun hframe =>
      hk.pushBody (hk.wrapOperand hframe _ _) _).setCounter _
  · exact h.modifyFrame hk (·.wrapOperand (o.factorialFunction ++ "(") ")") fun hframe =>
      hk.wrapOperand hframe _ _
  · obtain ⟨hprevious, hframes, himplicit, hcounter⟩ := h
    refine ⟨hprevious, ?_, himplicit, hcounter⟩
    simp only [Progress.apply]
    generalize p.sums = sums, q.sums = sums', p.root = root, q.root = root' at hframes ⊢
    cases hframes with
    | root sums h => exact .root _ h
    | sum root inner outer h => exact .sum root (_ :: inner) outer h
  · simp only [Progress.apply, emit_eq]
    have hbefore := h.beforeText hk kind
    rw [hbefore.counter]
    exact ((hbefore.add hk _).setCounter _).countParen hk kind

theorem advance (hp : p.Logged) (hq : q.Logged) (hsuits : meaning.Suits kind) :
    (p.advance o kind meaning).Related r t (q.advance o kind meaning) := by
  have hlog : p.afterLog = q.afterLog := by rw [afterLog, afterLog, h.previous]
  have hother := (((h.separate hk kind).adjustImplicit hk kind).apply hk kind meaning).setPrevious
    (some kind)
  unfold Progress.advance
  simp only [afterLog_separate, ← hlog]
  split
  · rename_i hafter
    obtain rfl : kind = .scripts := hsuits
    rw [separate_scripts, separate_scripts]
    exact h.takeBase hk hp hq hafter (hlog ▸ hafter) _
  · exact hother

/-- Whatever is written to both, they stay related. -/
theorem writeAll (hp : p.Logged) (hq : q.Logged) (nodes : List Node) :
    (Node.writeAll o nodes p).Related r t (Node.writeAll o nodes q) := by
  induction nodes generalizing p q with
  | nil => exact h
  | cons node nodes ih =>
    exact ih (h.advance hk hp hq (Node.meaning_suits o node)) logged_advance logged_advance

/-- In the end the frames outside of all sums are related. -/
theorem root_close : r (p.close o).root (q.close o).root := by
  have hframes := (h.close hk).frames
  have hsums : (p.close o).sums = [] := sums_settle
  rw [hsums] at hframes
  generalize (p.close o).root = root, (q.close o).root = root', (q.close o).sums = sums at hframes ⊢
  generalize hnone : (root, ([] : List OpenSum)) = frames at hframes
  cases hframes with
  | root sums h =>
    cases hnone
    exact h
  | sum root inner outer h =>
    have := congrArg (fun frames => frames.2.length) hnone
    simp at this

end Related

end Progress

end FormulaEditor
