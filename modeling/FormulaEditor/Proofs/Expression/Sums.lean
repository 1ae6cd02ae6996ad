import FormulaEditor.Proofs.Expression.Frame
import FormulaEditor.Proofs.Expression.Writing

/-!
# Parens of open sums

While an expression is written, every open sum has a frame of its own. Each frame leaves open the
parens that are counted for it, and the frame that text goes to also those behind bare function
names. A sum that leaves none open becomes a balanced loop, so closing sums keeps the count.
-/

namespace FormulaEditor

/-- No name of the options has parens. -/
structure ExprOptions.ParenFree (o : ExprOptions) : Prop where
  power : FormulaEditor.ParenFree o.powerFunction
  factorial : FormulaEditor.ParenFree o.factorialFunction
  logBase : FormulaEditor.ParenFree o.logBaseFunction
  accumulator : FormulaEditor.ParenFree o.accumulatorPrefix

/-- Whatever number the first accumulator gets, the expression is balanced. -/
def Compilation.Even (c : Compilation) : Prop :=
  ∀ n, (c n).1.Even

/-- The limits of a sum are balanced, and so is the variable that the lower one assigns. -/
structure OpenSum.Sound (s : OpenSum) : Prop where
  top : Compilation.Even s.top
  bottom : Compilation.Even s.bottom
  loopVariable : ∀ n, Balanced (OpenSum.loopVariable (s.bottom n).1.expr)

/-- The frames of open sums and the root leave `k` counted parens open between them, and the
innermost frame `implicit` others. -/
def Stacked (root : Frame) (implicit : Nat) : List OpenSum → Nat → Prop
  | [], k => root.Holds (k + implicit)
  | s :: rest, k => s.Sound ∧ s.frame.Holds (s.depth + implicit) ∧
    ∃ outer, k = outer + s.depth ∧ Stacked root 0 rest outer

variable {o : ExprOptions} {e init last argument : Expression} {frame root : Frame}
  {sums : List OpenSum} {s : OpenSum} {k implicit : Nat} {name : String}

/-! ## Loops -/

theorem parenFree_toString (n : Nat) : ParenFree (toString n) := by
  intro c hc
  have hc : c ∈ Nat.toDigits 10 n := by simpa [Nat.toString_eq_repr, Nat.toList_repr] using hc
  have hdigit : c.isDigit := Nat.isDigit_of_mem_toDigits (by decide) (by decide) hc
  constructor
  · rintro rfl
    cases hdigit
  · rintro rfl
    cases hdigit

theorem OpenSum.even_loopText {op : BigOp} (hi : init.Even) (hl : last.Even) (ha : argument.Even)
    (hn : ParenFree name) (hv : Balanced (loopVariable init.expr)) :
    (loopText op name init last argument).Even := by
  have hbody : ∀ start step : String, ParenFree start → ParenFree step →
      Leads ("\n" ++ init.body ++ "\n" ++ last.body ++ "\nfloat " ++ name ++ " = " ++ start ++
        ";\nfor (float " ++ init.expr ++ "; " ++ loopVariable init.expr ++ " <= " ++ last.expr ++
        "; " ++ loopVariable init.expr ++ "++) \x7b\n    " ++ argument.body ++ "\n    " ++ name ++
        " " ++ step ++ " " ++ argument.expr ++ ";\n\x7d") 0 0 := by
    intro start step hstart hstep
    have plain : ∀ {s : String}, ParenFree s → ∀ k, Leads s k k := fun h k => h.leads k
    have hfor : Leads ";\nfor (float " 0 1 := rfl
    have hdo : Leads "++) \x7b\n    " 1 0 := rfl
    simp only [String.append_assoc]
    exact (plain (by decide) 0).append <| (hi.body.leads 0).append <|
      (plain (by decide) 0).append <| (hl.body.leads 0).append <|
      (plain (by decide) 0).append <| (hn.leads 0).append <| (plain (by decide) 0).append <|
      (hstart.leads 0).append <| hfor.append <| (hi.expr.leads 1).append <|
      (plain (by decide) 1).append <| (hv.leads 1).append <| (plain (by decide) 1).append <|
      (hl.expr.leads 1).append <| (plain (by decide) 1).append <| (hv.leads 1).append <|
      hdo.append <| (ha.body.leads 0).append <| (plain (by decide) 0).append <|
      (hn.leads 0).append <| (plain (by decide) 0).append <| (hstep.leads 0).append <|
      (plain (by decide) 0).append <| (ha.expr.leads 0).append <| plain (by decide) 0
  refine ⟨balanced_iff.mpr ?_, hn.balanced⟩
  cases op with
  | sum => exact hbody "0.0" "+=" (by decide) (by decide)
  | product => exact hbody "1.0" "*=" (by decide) (by decide)

theorem OpenSum.Sound.fold (ho : o.ParenFree) (h : s.Sound) (hf : s.frame.Holds 0) :
    Compilation.Even (s.fold o) := fun n =>
  even_loopText (h.bottom n) (h.top _) hf.finish (ho.accumulator.append (parenFree_toString _))
    (h.loopVariable n)

/-! ## Closing sums -/

/-- Closing sums keeps what is counted. It ends where a sum has parens open, if there may be one. -/
theorem Stacked.settle (ho : o.ParenFree) (balancedOnly : Bool) (counter : Nat) (h : Stacked root 0 sums k)
    (he : e.Even) (hk : balancedOnly = false → k = 0) :
    Stacked (Progress.settle o balancedOnly e root counter sums).2.1 0
        (Progress.settle o balancedOnly e root counter sums).1 k ∧
      (balancedOnly = false → (Progress.settle o balancedOnly e root counter sums).1 = []) ∧
      ∀ s ∈ (Progress.settle o balancedOnly e root counter sums).1.head?, s.depth ≠ 0 := by
  induction sums generalizing e root counter k with
  | nil => exact ⟨h.add he.body (he.expr.leads _), fun _ => rfl, by simp [Progress.settle]⟩
  | cons s rest ih =>
    obtain ⟨hs, hframe, outer, rfl, hrest⟩ := h
    have hadd : (s.frame.add e).Holds s.depth := hframe.add he.body (he.expr.leads _)
    unfold Progress.settle
    simp only
    split
    · rename_i hstay
      obtain ⟨rfl, hdepth⟩ : balancedOnly = true ∧ s.depth ≠ 0 := by simpa using hstay
      exact ⟨⟨⟨hs.top, hs.bottom, hs.loopVariable⟩, hadd, outer, rfl, hrest⟩, by simp,
        by simpa using hdepth⟩
    · rename_i hgo
      have hdepth : s.depth = 0 := by
        cases hb : balancedOnly with
        | true => simpa [hb] using hgo
        | false =>
          have := hk hb
          omega
      rw [hdepth] at hadd
      have hsound : OpenSum.Sound { s with frame := s.frame.add e } :=
        ⟨hs.top, hs.bottom, hs.loopVariable⟩
      rw [hdepth, Nat.add_zero] at hk ⊢
      exact ih _ hrest (hsound.fold ho hadd counter) hk

/-! ## Changing the innermost frame -/

namespace Progress

variable {p : Progress} {change : Frame → Frame}

/-- A change to the innermost frame keeps the count if it changes the number of implicit parens as
it is said to. -/
theorem stacked_modifyFrame (implicit' : Nat) (h : Stacked p.root implicit p.sums k)
    (hchange : ∀ d, p.current.Holds (d + implicit) → (change p.current).Holds (d + implicit')) :
    Stacked (p.modifyFrame change).root implicit' (p.modifyFrame change).sums k := by
  obtain ⟨_, _, _ | ⟨s, rest⟩, _, _⟩ := p
  · exact hchange k h
  · obtain ⟨hs, hframe, hrest⟩ := h
    exact ⟨⟨hs.top, hs.bottom, hs.loopVariable⟩, hchange _ hframe, hrest⟩

end Progress

end FormulaEditor
