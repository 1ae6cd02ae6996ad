import FormulaEditor.Proofs.Expression.Margin
import FormulaEditor.Proofs.Expression.Sums

/-!
# Writing a node keeps the count

A paren opened after a bare function name is closed in the frame that text goes to by then. Where no
paren is stranded that is the frame it was opened in, so every frame goes on leaving open the parens
that are counted for it.
-/

namespace FormulaEditor

/-- What the node writes is balanced, but for the paren that its kind says. -/
def Meaning.Fits (kind : Kind) : Meaning → Prop
  | .scripts exponent base =>
    (∀ c ∈ exponent, Compilation.Even c) ∧ ∀ c ∈ base, Compilation.Even c
  | .bang => True
  | .big op top bottom => OpenSum.Sound ⟨op, top, bottom, 0, .empty⟩
  | .piece text => ∀ n, Balanced (text n).1.body ∧
    ∀ k j, openAfter Kind.isLeftParen Kind.isRightParen k [kind] = some j →
      Leads (text n).1.expr k j

/-- A name that reads as the logarithm has no parens. -/
theorem parenFree_of_unitalicize {name : String} (h : Text.unitalicize name = "log") :
    ParenFree name := by
  intro c hc
  have hplain : Text.plain c ∈ ("log" : String).toList := by
    rw [← h, Text.unitalicize, String.toList_ofList]
    exact List.mem_map_of_mem hc
  constructor
  · rintro rfl
    exact absurd hplain (by decide)
  · rintro rfl
    exact absurd hplain (by decide)

namespace Progress

variable {o : ExprOptions} {p : Progress} {m : Margin} {node : Node} {kind : Kind} {k j : Nat}
  {e : Expression} {counter : Nat} {exponent base top bottom text : Compilation} {meaning : Meaning}

theorem Logged.parenFree (h : p.Logged) (hafter : p.afterLog = true) :
    ∀ token ∈ p.current.tokens.head?, ParenFree token := by
  intro token ht
  obtain ⟨name, hname, hplain⟩ := h hafter
  obtain rfl := Option.mem_unique ht hname
  exact parenFree_of_unitalicize hplain

/-! ## Between nodes -/

theorem stacked_separate (h : Stacked p.root p.implicit p.sums k) :
    Stacked (p.separate kind).root p.implicit (p.separate kind).sums k := by
  unfold separate
  split
  · exact stacked_modifyFrame _ h fun d hd => hd.push ((by decide : ParenFree "*").leads _)
  · exact h

theorem stacked_adjustImplicit (h : Stacked p.root p.implicit p.sums k) :
    Stacked (p.adjustImplicit kind).root (p.adjustImplicit kind).implicit
      (p.adjustImplicit kind).sums k := by
  unfold adjustImplicit
  split
  · refine stacked_modifyFrame _ h fun d hd => hd.push ?_
    have hopen : Leads "(" 0 1 := rfl
    simpa [push, Nat.add_assoc, Nat.add_comm 1] using hopen.shift (d + p.implicit)
  · split
    · exact stacked_modifyFrame _ h fun d hd => hd.push (leads_repeated _ d)
    · exact h

/-! ## What nodes write -/

theorem stacked_takeBase (ho : o.ParenFree) (h : Stacked p.root p.implicit p.sums k)
    (hlog : ∀ token ∈ p.current.tokens.head?, ParenFree token) (hb : Compilation.Even base) :
    Stacked (p.takeBase o base).root (p.takeBase o base).implicit (p.takeBase o base).sums k := by
  rw [takeBase_eq]
  have hpop : Stacked (p.modifyFrame Frame.pop).root p.implicit (p.modifyFrame Frame.pop).sums k :=
    stacked_modifyFrame _ h fun d hd => hd.pop hlog
  refine stacked_modifyFrame (p.implicit + 1) hpop fun d hd => ?_
  have hopen : Leads "(" 0 1 := rfl
  have htext : Leads (o.logBaseFunction ++ "(" ++ (base p.counter).1.expr ++ ",") 0 1 :=
    (((ho.logBase.leads 0).append hopen).append ((hb _).expr.leads 1)).append
      ((by decide : ParenFree ",").leads 1)
  refine hd.add (hb p.counter).body ?_
  simpa [Nat.add_assoc, Nat.add_comm 1] using htext.shift (d + p.implicit)

theorem stacked_raise (ho : o.ParenFree) (h : Stacked p.root p.implicit p.sums k)
    (he : Compilation.Even exponent) :
    Stacked (p.raise o exponent).root p.implicit (p.raise o exponent).sums k := by
  refine stacked_modifyFrame _ h fun d hd => (hd.wrapOperand (fun k => ?_) fun k => ?_).pushBody
    (he p.counter).body
  · have hopen : Leads "(" 0 1 := rfl
    simpa [Nat.add_comm] using ((ho.power.leads 0).append hopen).shift k
  · have hbefore : Leads ", (" 1 2 := rfl
    have hbehind : Leads "))" 2 0 := rfl
    simpa [Nat.add_comm] using
      ((hbefore.append ((he p.counter).expr.leads 2)).append hbehind).shift k

theorem stacked_bang (ho : o.ParenFree) (h : Stacked p.root p.implicit p.sums k) :
    Stacked (p.apply o kind .bang).root p.implicit (p.apply o kind .bang).sums k := by
  refine stacked_modifyFrame _ h fun d hd => hd.wrapOperand (fun k => ?_) fun k => ?_
  · have hopen : Leads "(" 0 1 := rfl
    simpa [Nat.add_comm] using ((ho.factorial.leads 0).append hopen).shift k
  · have hclose : Leads ")" 1 0 := rfl
    simpa [Nat.add_comm] using hclose.shift k

/-- A sum may be opened where no paren is open behind a function name. -/
theorem stacked_big {op : BigOp} (h : Stacked p.root p.implicit p.sums k) (hp : p.implicit = 0)
    (hs : OpenSum.Sound ⟨op, top, bottom, 0, .empty⟩) :
    Stacked (p.apply o kind (.big op top bottom)).root p.implicit
      (p.apply o kind (.big op top bottom)).sums k := by
  rw [hp] at h ⊢
  exact ⟨hs, Frame.holds_empty, k, rfl, h⟩

/-- Closing sums keeps the count where no paren is open behind a function name, or none of the sums
can be closed. -/
theorem stacked_closeSums (ho : o.ParenFree) (h : Stacked p.root p.implicit p.sums k)
    (hp : p.implicit = 0 ∨ (p.sums.map OpenSum.depth).head? ≠ some 0) :
    Stacked (p.closeSums o true).root p.implicit (p.closeSums o true).sums k ∧
      ∀ s ∈ (p.closeSums o true).sums.head?, s.depth ≠ 0 := by
  obtain hp | hp := hp
  · rw [hp] at h ⊢
    obtain ⟨hstack, -, hhead⟩ := h.settle (e := .blank) ho true p.counter
      (Expression.even_pure (by decide)) (by simp)
    exact ⟨hstack, hhead⟩
  · obtain ⟨previous, root, _ | ⟨s, rest⟩, implicit, counter⟩ := p
    · refine ⟨?_, by simp [closeSums, settle]⟩
      simpa [closeSums, settle] using h
    · have hs : s.depth ≠ 0 := by simpa using hp
      simpa [closeSums, settle, hs] using h

/-- A node that shows a paren, or none, counts as the list counts it. -/
theorem stacked_countParen (h : Stacked p.root p.implicit p.sums k)
    (hk : openAfter Kind.isLeftParen Kind.isRightParen k [kind] = some j)
    (hhead : kind.endsArgument = true → ∀ s ∈ p.sums.head?, s.depth ≠ 0)
    (hb : Balanced e.body)
    (he : ∀ k j, openAfter Kind.isLeftParen Kind.isRightParen k [kind] = some j → Leads e.expr k j) :
    Stacked (({ p.add e with counter } : Progress).countParen kind).root p.implicit
      (({ p.add e with counter } : Progress).countParen kind).sums j := by
  obtain ⟨previous, root, _ | ⟨s, rest⟩, implicit, _⟩ := p
  · refine Frame.Holds.add h hb (he _ _ ?_)
    exact openAfter_add hk implicit
  · obtain ⟨hs, hframe, outer, rfl, hrest⟩ := h
    simp only [add, modifyFrame, countParen]
    simp only [openAfter] at hk
    split
    · rename_i hleft
      rw [if_pos hleft] at hk
      refine ⟨⟨hs.top, hs.bottom, hs.loopVariable⟩, hframe.add hb (he _ _ ?_), outer, ?_, hrest⟩
      · simp [openAfter, hleft, Nat.add_right_comm]
      · exact (Option.some.inj hk).symm
    · rename_i hleft
      rw [if_neg hleft] at hk
      split
      · rename_i hright
        have hdepth : s.depth ≠ 0 := hhead (by simp [Kind.endsArgument, hright]) s (by simp)
        rw [if_pos hright, if_neg (by omega)] at hk
        refine ⟨⟨hs.top, hs.bottom, hs.loopVariable⟩, hframe.add hb (he _ _ ?_), outer, ?_, hrest⟩
        · simp only [openAfter, hleft, hright, Bool.false_eq_true, if_false, if_true]
          rw [if_neg (by omega)]
          congr 1
          omega
        · have := Option.some.inj hk
          simp only
          omega
      · rename_i hright
        rw [if_neg hright] at hk
        refine ⟨⟨hs.top, hs.bottom, hs.loopVariable⟩, hframe.add hb (he _ _ ?_), outer, ?_, hrest⟩
        · simp [openAfter, hleft, hright]
        · exact (Option.some.inj hk).symm

theorem stacked_emit (ho : o.ParenFree) (h : Stacked p.root p.implicit p.sums k)
    (hp : kind.endsArgument = true →
      p.implicit = 0 ∨ (p.sums.map OpenSum.depth).head? ≠ some 0)
    (hk : openAfter Kind.isLeftParen Kind.isRightParen k [kind] = some j)
    (hfit : (Meaning.piece text).Fits kind) :
    Stacked (p.emit o kind text).root p.implicit (p.emit o kind text).sums j := by
  rw [emit_eq]
  unfold beforeText
  split
  · rename_i hends
    obtain ⟨hstack, hhead⟩ := stacked_closeSums ho h (hp hends)
    exact stacked_countParen hstack hk (fun _ => hhead) (hfit _).1 (hfit _).2
  · rename_i hends
    exact stacked_countParen h hk (fun hc => absurd hc hends) (hfit _).1 (hfit _).2

/-- What is written behind a node leaves open what is counted, unless the node strands a paren. -/
theorem stacked_advance (ho : o.ParenFree) (h : Stacked p.root p.implicit p.sums k)
    (hlog : p.Logged) (hm : p.At m) (hs : m.strands node.kind = false)
    (hk : openAfter Kind.isLeftParen Kind.isRightParen k [node.kind] = some j)
    (hfit : (node.meaning o).Fits node.kind) :
    Stacked (p.advance o node.kind (node.meaning o)).root
      (p.advance o node.kind (node.meaning o)).implicit
      (p.advance o node.kind (node.meaning o)).sums j := by
  obtain ⟨exponent, base, hmean, hafter, heq⟩ | ⟨-, heq⟩ := advance_eq o p node
  · have hkind := Node.kind_of_meaning_scripts hmean
    rw [hkind] at heq hk
    rw [hmean] at hfit
    obtain rfl : k = j := by simpa [openAfter, Kind.isLeftParen, Kind.isRightParen] using hk
    rw [hkind, heq, separate_scripts]
    exact stacked_takeBase ho h (hlog.parenFree hafter) (hfit.2 base rfl)
  · rw [heq]
    have hq : Stacked ((p.separate node.kind).adjustImplicit node.kind).root _ _ k :=
      stacked_adjustImplicit (by simpa using stacked_separate h)
    have hpending := implicit_adjustImplicit (hm.separate node.kind) node.kind
    have hdepths : ((p.separate node.kind).adjustImplicit node.kind).sums.map OpenSum.depth =
        m.depths := by simpa using hm.depths
    generalize (p.separate node.kind).adjustImplicit node.kind = q at hq hpending hdepths
    have hsuits := Node.meaning_suits o node
    generalize node.kind = kind at hk hs hfit hsuits hpending
    simp only [Margin.strands, Bool.or_eq_false_iff] at hs
    generalize node.meaning o = meaning at hfit hsuits
    change Stacked (q.apply o kind meaning).root (q.apply o kind meaning).implicit
      (q.apply o kind meaning).sums j
    rw [implicit_apply]
    rcases meaning with ⟨_ | exponent, base⟩ | _ | ⟨op, top, bottom⟩ | text
    · obtain rfl : kind = .scripts := hsuits
      obtain rfl : k = j := by simpa [openAfter, Kind.isLeftParen, Kind.isRightParen] using hk
      exact hq
    · obtain rfl : kind = .scripts := hsuits
      obtain rfl : k = j := by simpa [openAfter, Kind.isLeftParen, Kind.isRightParen] using hk
      exact stacked_raise ho hq (hfit.1 exponent rfl)
    · cases kind <;> simp only [Meaning.Suits, Kind.isAtom, Bool.false_eq_true] at hsuits
      obtain rfl : k = j := by simpa [openAfter, Kind.isLeftParen, Kind.isRightParen] using hk
      exact stacked_bang ho hq
    · obtain rfl : kind = .big op := hsuits
      obtain rfl : k = j := by simpa [openAfter, Kind.isLeftParen, Kind.isRightParen] using hk
      refine stacked_big hq (Classical.byContradiction fun hc => ?_) hfit
      have := hpending hc
      simp_all [Kind.isBig]
    · refine stacked_emit ho hq (fun hends => ?_) hk hfit
      refine Classical.or_iff_not_imp_left.mpr fun hc => ?_
      have := hpending hc
      rw [hdepths]
      simp_all

end Progress

end FormulaEditor
