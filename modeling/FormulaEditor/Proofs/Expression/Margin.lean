import FormulaEditor.Proofs.Expression.Writing

/-!
# Parens that nobody wrote

A bare function name and the base of a logarithm open a paren, which the next operator or closing
paren of the list closes. While the list is read, sums are opened and closed as well, and each has a
text of its own. A paren is stranded when it is closed in the text of another sum than it was opened
in. That depends on the order of the nodes alone.
-/

namespace FormulaEditor

/-- What is open before a node of a list. -/
structure Margin where
  /-- The node before, unless it is used up. -/
  previous : Option Kind
  /-- Whether parens are open behind bare function names. -/
  pending : Bool
  /-- How many parens are open in the argument of each open sum, innermost first. -/
  depths : List Nat
deriving DecidableEq, Repr

namespace Margin

/-- Nothing is open before the first node. -/
def start : Margin :=
  ⟨none, false, []⟩

variable (m : Margin)

/-- Whether the node before is a function name. -/
def afterFunction : Bool :=
  m.previous.any Kind.isFunction

/-- Whether the node before is the logarithm. -/
def afterLog : Bool :=
  m.previous.any fun kind => kind.isFunction && kind.text? == some "log"

/-- Whether a paren is stranded at a node of this kind: a sum is opened in front of the paren that
closes it, or is closed right behind a function name, whose paren has just been opened inside. -/
def strands (kind : Kind) : Bool :=
  kind.isBig && (m.pending || m.afterFunction) ||
    kind.endsArgument && m.afterFunction && m.depths.head? == some 0

/-- The sums that a node of this kind leaves open. -/
def depthsBehind (kind : Kind) : List Nat :=
  if kind.isBig then 0 :: m.depths
  else if kind.isLeftParen then m.depths.modifyHead (· + 1)
  else if kind.isRightParen then (m.depths.dropWhile (· == 0)).modifyHead (· - 1)
  else if kind.isBinary then m.depths.dropWhile (· == 0)
  else m.depths

/-- What is open behind a node. -/
def next (node : Node) : Margin :=
  if node.hasSubscript && m.afterLog then { m with previous := none, pending := true }
  else
    { previous := some node.kind
      pending := m.afterFunction && !node.kind.isLeftParen || m.pending && !node.kind.endsArgument
      depths := m.depthsBehind node.kind }

end Margin

/-- Whether a paren is stranded in the rest of a list. -/
def Node.strandsFrom (m : Margin) : List Node → Bool
  | [] => false
  | node :: nodes => m.strands node.kind || strandsFrom (m.next node) nodes

/-- Whether a paren is stranded in a list. -/
def Node.strands (nodes : List Node) : Bool :=
  strandsFrom .start nodes

namespace Progress

variable {o : ExprOptions} {p : Progress} {m : Margin} {node : Node} {kind : Kind}
  {meaning : Meaning} {e : Expression} {root : Frame} {counter : Nat} {sums : List OpenSum}

/-! ## While an expression is written -/

/-- What is open while an expression is written is what is open in the list. -/
structure At (p : Progress) (m : Margin) : Prop where
  previous : p.previous = m.previous
  pending : p.implicit ≠ 0 → m.pending = true
  depths : p.sums.map OpenSum.depth = m.depths

theorem at_start (counter : Nat) : (start counter).At .start :=
  ⟨rfl, fun h => absurd rfl h, rfl⟩

namespace At

variable (h : p.At m)

include h

theorem afterLog : p.afterLog = m.afterLog := by
  rw [Progress.afterLog, Margin.afterLog, h.previous]

theorem separate (kind : Kind) : (p.separate kind).At m :=
  ⟨by simpa using h.previous, by simpa using h.pending, by simpa using h.depths⟩

end At

/-- The sums that are closed are those without open parens, up to the first one that has some. -/
theorem depths_settle : (settle o true e root counter sums).1.map OpenSum.depth =
    (sums.map OpenSum.depth).dropWhile (· == 0) := by
  induction sums generalizing e root counter with
  | nil => rfl
  | cons s rest ih =>
    unfold settle
    simp only [Bool.true_and, List.map_cons]
    by_cases hs : s.depth = 0
    · simp [hs, ih]
    · simp [hs]

theorem implicit_adjustImplicit (h : p.At m) (kind : Kind) (hp : (p.adjustImplicit kind).implicit ≠ 0) :
    (m.afterFunction && !kind.isLeftParen || m.pending && !kind.endsArgument) = true := by
  unfold adjustImplicit at hp
  rw [h.previous] at hp
  split at hp
  · rename_i hf
    rw [Margin.afterFunction, hf, Bool.true_or]
  · split at hp
    · exact absurd rfl hp
    · rename_i hends
      simp [h.pending hp, hends]

theorem depths_emit {text : Compilation} : (p.emit o kind text).sums.map OpenSum.depth =
    if kind.isLeftParen then (p.sums.map OpenSum.depth).modifyHead (· + 1)
    else if kind.isRightParen then
      ((p.sums.map OpenSum.depth).dropWhile (· == 0)).modifyHead (· - 1)
    else if kind.isBinary then (p.sums.map OpenSum.depth).dropWhile (· == 0)
    else p.sums.map OpenSum.depth := by
  have hclose : (p.closeSums o true).sums.map OpenSum.depth =
      (p.sums.map OpenSum.depth).dropWhile (· == 0) := depths_settle
  unfold emit
  simp only [depths_countParen, add, depths_modifyFrame]
  cases kind <;> simp [Kind.endsArgument, Kind.isBinary, Kind.isRightParen, Kind.isLeftParen, hclose]
  split <;> simp_all

theorem depths_apply (hs : meaning.Suits kind) (h : p.sums.map OpenSum.depth = m.depths) :
    (p.apply o kind meaning).sums.map OpenSum.depth = m.depthsBehind kind := by
  rcases meaning with ⟨_ | exponent, base⟩ | _ | ⟨op, top, bottom⟩ | text
  · obtain rfl : kind = .scripts := hs
    exact h
  · obtain rfl : kind = .scripts := hs
    change _ = m.depths
    simpa [apply, raise] using h
  · cases kind <;> simp [Meaning.Suits, Kind.isAtom] at hs
    change _ = m.depths
    simpa [apply] using h
  · obtain rfl : kind = .big op := hs
    simpa [apply, Margin.depthsBehind, Kind.isBig] using h
  · rw [apply, depths_emit, h, Margin.depthsBehind, if_neg (Bool.eq_false_iff.mp hs.2)]

/-- A node takes what is open before it to what is open behind it. -/
theorem At.advance (h : p.At m) : (p.advance o node.kind (node.meaning o)).At (m.next node) := by
  obtain ⟨exponent, base, hm, hlog, heq⟩ | ⟨hno, heq⟩ := advance_eq o p node
  · have hsub : node.hasSubscript = true := Node.hasSubscript_iff.mpr ⟨_, _, hm⟩
    rw [heq, Margin.next, hsub, ← h.afterLog, hlog]
    exact ⟨rfl, fun _ => rfl, by simpa [takeBase, add] using h.depths⟩
  · rw [h.afterLog] at hno
    rw [heq, Margin.next, if_neg (Bool.eq_false_iff.mp hno)]
    refine ⟨rfl, fun hp => ?_, depths_apply (Node.meaning_suits o node) ?_⟩
    · rw [implicit_apply] at hp
      exact implicit_adjustImplicit (h.separate _) _ hp
    · simpa using h.depths

end Progress

end FormulaEditor
