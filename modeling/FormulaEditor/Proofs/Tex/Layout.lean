import FormulaEditor.Proofs.Tex.Canonical
import FormulaEditor.Proofs.Tex.Reading

/-!
# Text laid out in pieces

Formula text that a person writes has tokens of its own choice between notation that was written out
before, and spaces where it pleases. It is lexed as the tokens of the pieces, as long as no letter
follows a control word directly.
-/

namespace FormulaEditor.Tex

/-- A token that its own characters are lexed as. -/
def Token.Proper : Token → Prop
  | .command name => name ≠ "" ∧ ∀ c ∈ name.toList, c.isAlpha
  | .char c => Plainly c
  | _ => True

/-- A token, or a list of notation as it is written. -/
inductive Piece
  | token (t : Token)
  | list (ns : List Node)

namespace Piece

/-- The text of a piece. -/
def chars : Piece → List Char
  | token t => t.chars
  | list ns => (write (Formula.ofNodes ns).nodes).toList

/-- The tokens of a piece. -/
def tokens : Piece → List Token
  | token t => [t]
  | list ns => tokensAll ns

/-- The text of the piece stands for the piece. -/
def Proper : Piece → Prop
  | token t => t.Proper
  | list ns => Canonical ns

/-- A token after which a letter may follow. -/
def IsMark : Piece → Prop
  | token (.command _) => False
  | token _ => True
  | list _ => False

end Piece

/-- The text has the pieces in turn, with any spaces around them. No letter follows what may end in
a control word. -/
inductive Laid : List Piece → List Char → Prop
  | nil : Laid [] []
  | space {ps : List Piece} {cs : List Char} (h : Laid ps cs) : Laid ps (' ' :: cs)
  | piece (p : Piece) {ps : List Piece} {cs : List Char} (hfits : p.IsMark ∨ Closed cs)
    (h : Laid ps cs) : Laid (p :: ps) (p.chars ++ cs)

variable {p : Piece} {ps : List Piece} {cs : List Char}

/-- Pieces may be joined by single spaces. -/
theorem laid_intercalate (ps : List Piece) :
    Laid ps (List.intercalate [' '] (ps.map Piece.chars)) := by
  induction ps with
  | nil => exact .nil
  | cons p ps ih =>
    cases ps with
    | nil =>
      have hend : Closed [] := rfl
      simpa using Laid.piece p (.inr hend) .nil
    | cons p' ps =>
      rw [List.map_cons, List.map_cons, List.intercalate_cons_cons, ← List.map_cons,
        List.append_assoc]
      exact .piece p (.inr (closed_cons (by decide))) (.space ih)

theorem Token.Proper.lexed {t : Token} (h : t.Proper)
    (hfits : (Piece.token t).IsMark ∨ Closed cs) : Tex.lexed (t.chars ++ cs) = t :: Tex.lexed cs := by
  cases t with
  | command name =>
    obtain hclosed := hfits.resolve_left id
    exact lexed_command _ name rfl h.1 h.2 hclosed
  | beginGroup => exact lexed_cons (c := '\x7b') ⟨by decide, by decide, by decide⟩
  | endGroup => exact lexed_cons (c := '\x7d') ⟨by decide, by decide, by decide⟩
  | superscript => exact lexed_up
  | subscript => exact lexed_down
  | char c => exact lexed_char h

theorem Piece.Proper.lexed (h : p.Proper) (hfits : p.IsMark ∨ Closed cs) :
    Tex.lexed (p.chars ++ cs) = p.tokens ++ Tex.lexed cs := by
  cases p with
  | token t => exact Token.Proper.lexed h hfits
  | list ns =>
    have hns : Canonical ns := h
    have hclosed := hfits.resolve_left id
    rw [Piece.chars, Formula.nodes_ofNodes, hns.uprightAll, write, String.toList_ofList]
    exact (lexesAs hns.legible).lexed hclosed

/-- Spaces leave no trace in the tokens. -/
theorem Laid.lexed (h : Laid ps cs) (hps : ∀ p ∈ ps, p.Proper) :
    Tex.lexed cs = ps.flatMap Piece.tokens := by
  induction h with
  | nil => rfl
  | space h ih => rw [lexed_space, ih hps]
  | piece p hfits h ih =>
    obtain ⟨hp, hps⟩ := List.forall_mem_cons.mp hps
    rw [hp.lexed hfits, ih hps, List.flatMap_cons]

/-- Text is read as the tokens of its pieces are. -/
theorem Laid.read_iff {text : String} {ns : List Node} (h : Laid ps text.toList)
    (hps : ∀ p ∈ ps, p.Proper) :
    read text = .ok ns ↔ Reads .input 0 (ps.flatMap Piece.tokens) ns [] := by
  rw [Tex.read_iff, ← h.lexed hps]
  rfl

end FormulaEditor.Tex
