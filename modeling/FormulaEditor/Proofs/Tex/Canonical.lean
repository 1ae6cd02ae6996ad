import FormulaEditor.Proofs.Balance
import FormulaEditor.Proofs.Formula.Snapshot
import FormulaEditor.Proofs.Tex.Tokens
import Mathlib.Data.List.Chain

/-!
# Canonical notation

Notation that its own text stands for: symbols in plain letters, scripts that no reading would join,
indices whose brackets match. What is canonical is legible, and has no italics to lose.
-/

namespace FormulaEditor

/-- The paren of a given character. -/
def Node.isParenOf (c : Char) : Node → Bool
  | .paren d => d == c
  | _ => false

@[simp] theorem Node.isParenOf_iff {c : Char} {n : Node} : n.isParenOf c = true ↔ n = .paren c := by
  cases n <;> simp [isParenOf]

/-- How many brackets are open behind a list, unless it closes one that is not open. -/
def Node.bracketsFrom (openBrackets : Nat) (ns : List Node) : Option Nat :=
  openAfter (isParenOf '[') (isParenOf ']') openBrackets ns

/-- The text of the node stands for the node, its lists aside. -/
def Node.Canonical : Node → Prop
  | .atom text => ∃ c, text = String.singleton c ∧ Tex.isAtomChar c ∧
    Tex.isScriptGlyph c = false ∧ Text.plain c = c
  | .function name => name ≠ "" ∧ ∀ c ∈ name.toList, Unicode.isAlphanumeric c
  | .paren c => isParen c
  | .scripts none none => False
  | .radical (some index) _ => bracketsFrom 0 index = some 0
  | _ => True

/-- The two nodes are not read as one where the second follows the first: an exponent takes in a
subscript written behind it and a subscript an exponent, and subscripts are written first. -/
def Node.Apart : Node → Node → Prop
  | .scripts (some _) none, .scripts _ (some _) => False
  | .scripts none (some _), .scripts (some _) none => False
  | _, _ => True

theorem Node.apart_exponent_iff {exponent : List Node} {m : Node} :
    Apart (.scripts (some exponent) none) m ↔
      ¬∃ exponent' subscript, m = .scripts exponent' (some subscript) := by
  rcases m with _ | _ | _ | _ | _ | _ | ⟨_ | _, _ | _⟩ | _ | _ <;> simp [Apart]

theorem Node.apart_subscript_iff {subscript : List Node} {m : Node} :
    Apart (.scripts none (some subscript)) m ↔ ¬∃ exponent, m = .scripts (some exponent) none := by
  rcases m with _ | _ | _ | _ | _ | _ | ⟨_ | _, _ | _⟩ | _ | _ <;> simp [Apart]

namespace Tex

/-- The nodes are canonical at every depth, and so are the lists they stand in. -/
def Canonical (ns : List Node) : Prop :=
  Node.EveryList (fun ns => (∀ n ∈ ns, n.Canonical) ∧ ns.IsChain Node.Apart) ns

variable {n : Node} {ns : List Node}

theorem canonical_nil : Canonical [] :=
  .intro ⟨by simp, .nil⟩ (by simp)

/-- A list is canonical if its first node is, the rest is, and the two stay apart. -/
theorem canonical_cons : Canonical (n :: ns) ↔
    (n.Canonical ∧ ∀ l ∈ n.lists, Canonical l) ∧ (∀ m ∈ ns.head?, n.Apart m) ∧ Canonical ns := by
  constructor
  · intro h
    obtain ⟨hall, hchain⟩ := h.here
    obtain ⟨hapart, hchain⟩ := List.isChain_cons.mp hchain
    exact ⟨⟨hall n (by simp), fun l hl => h.inside (by simp) hl⟩, hapart,
      .intro ⟨fun m hm => hall m (by simp [hm]), hchain⟩
        fun m hm l hl => h.inside (by simp [hm]) hl⟩
  · rintro ⟨⟨hn, hl⟩, hapart, hns⟩
    refine .intro ⟨?_, List.isChain_cons.mpr ⟨hapart, hns.here.2⟩⟩ ?_
    · simpa using ⟨hn, hns.here.1⟩
    · intro m hm l hml
      obtain rfl | hm := List.mem_cons.mp hm
      · exact hl l hml
      · exact hns.inside hm hml

theorem legible_of_canonical (h : n.Canonical) : n.Legible := by
  cases n with
  | atom text =>
    have h : ∃ c, text = String.singleton c ∧ isAtomChar c ∧ _ := h
    obtain ⟨c, rfl, hc, -⟩ := h
    exact ⟨c, rfl, hc⟩
  | function | paren => exact h
  | scripts exponent subscript =>
    cases exponent with
    | none =>
      cases subscript with
      | none => exact h
      | some => trivial
    | some => trivial
  | _ => trivial

theorem Canonical.legible (h : Canonical ns) : Node.EveryNode Node.Legible ns :=
  h.mono fun _ hns n hn => legible_of_canonical (hns.1 n hn)

/-- Canonical notation has no italics, and is not changed by what leaves nodes apart. -/
theorem Canonical.respelledAll {attach : Node → List Node → List Node}
    (hattach : ∀ n ns, (∀ m ∈ ns.head?, n.Apart m) → attach n ns = n :: ns) (h : Canonical ns) :
    Node.respelledAll attach ns = ns := by
  refine (Node.induction (P := fun n => n.Canonical → (∀ l ∈ n.lists, Canonical l) →
    n.respelled attach = n) (Q := fun ns => Canonical ns → Node.respelledAll attach ns = ns)
    ?node ?nil ?cons).2 ns h
  case node =>
    intro n ih hn hl
    have ih : ∀ l ∈ n.lists, Node.respelledAll attach l = l := fun l hmem => ih l hmem (hl l hmem)
    rcases n with text | _ | _ | _ | _ | ⟨_ | _, _⟩ | ⟨_ | _, _ | _⟩ | _ | _
    case atom =>
      have hn : ∃ c, text = String.singleton c ∧ _ ∧ _ ∧ Text.plain c = c := hn
      obtain ⟨c, rfl, -, -, hc⟩ := hn
      rw [Node.respelled, Text.unitalicize, String.toList_singleton, List.map_singleton, hc]
      rfl
    all_goals simp_all [Node.respelled, Node.lists]
  case nil => exact fun _ => rfl
  case cons =>
    intro n ns hn hns h
    obtain ⟨⟨hn', hl⟩, hapart, hns'⟩ := canonical_cons.mp h
    rw [Node.respelledAll, hn hn' hl, hns hns', hattach n ns hapart]

theorem Canonical.uprightAll (h : Canonical ns) : Node.uprightAll ns = ns :=
  h.respelledAll fun _ _ _ => rfl

/-- Canonical notation is settled. -/
theorem Canonical.settledAll (h : Canonical ns) : Node.settledAll ns = ns := by
  refine h.respelledAll fun n ns hapart => ?_
  unfold Node.join
  split
  · exact absurd (hapart _ rfl) (by simp [Node.Apart])
  · rfl

end Tex

end FormulaEditor
