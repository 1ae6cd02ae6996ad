import FormulaEditor.Node.Basic

/-!
# Matching parens

Within one list, a closing paren belongs to the nearest opening paren before it that is still open;
shapes do not matter. A closing paren with nothing to close is sized to the element before it.
-/

namespace FormulaEditor

/-- What a closing paren was matched with. Elements are given by their index in the list. -/
inductive ParenMatch
  /-- The opening paren it closes. -/
  | paren (opener : Nat)
  /-- No opening paren, so the element just before. -/
  | ambient (neighbour : Nat)
  /-- No opening paren, and nothing before. -/
  | unmatched
deriving DecidableEq, Repr, Inhabited

/-- Whether it is an opening paren that was found. -/
def ParenMatch.isParen : ParenMatch → Bool
  | paren _ => true
  | _ => false

/-- The parens of a list, matched. -/
structure ParenMatches where
  /-- Every closing paren with what it was matched with, in order. -/
  closing : List (Nat × ParenMatch)
  /-- The opening parens that nothing closes, in order. -/
  unclosed : List Nat
deriving DecidableEq, Repr, Inhabited

namespace ParenMatches

/-- Matches the parens from index `i` on; `opened` holds those still open, last one first. -/
def scan (i : Nat) (opened : List Nat) : List Kind → ParenMatches
  | [] => ⟨[], opened.reverse⟩
  | kind :: kinds =>
    if kind.isLeftParen then scan (i + 1) (i :: opened) kinds
    else if kind.isRightParen then
      let (found, opened) := match opened with
        | opener :: opened => (ParenMatch.paren opener, opened)
        | [] => (if i = 0 then .unmatched else .ambient (i - 1), [])
      let rest := scan (i + 1) opened kinds
      { rest with closing := (i, found) :: rest.closing }
    else scan (i + 1) opened kinds

/-- The matching of a list. -/
def of (kinds : List Kind) : ParenMatches :=
  scan 0 [] kinds

/-- What the closing paren at an index was matched with; nothing if there is none. -/
def get? (m : ParenMatches) (closer : Nat) : Option ParenMatch :=
  m.closing.lookup closer

/-- The closing paren of an opening one. -/
def closerOf? (m : ParenMatches) (opener : Nat) : Option Nat :=
  (m.closing.find? fun entry => entry.2 = .paren opener).map Prod.fst

/-- Whether every paren has its partner. -/
def isBalanced (m : ParenMatches) : Bool :=
  m.unclosed.isEmpty && m.closing.all fun entry => entry.2.isParen

end ParenMatches

end FormulaEditor
