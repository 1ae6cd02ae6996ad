import FormulaEditor.Proofs.Expression.Accumulators
import FormulaEditor.Proofs.Expression.Difference
import FormulaEditor.Proofs.Expression.Steady
import FormulaEditor.Proofs.Node.Gap

/-!
# Exponents

What an exponent says can be read off the expression of the formula around it, however deep it lies.
Only an exponent beside the base of a logarithm is not written, and nothing in it is.
-/

namespace FormulaEditor

variable {o w : ExprOptions} {inner inner' : List Node}

/-! ## Lists that are written -/

/-- Whether the list that is put into the gap is written. It is, unless it is an exponent beside the
base of a logarithm. -/
def Node.Around.isWritten (around : Node.Around) : Bool :=
  match around.gap with
  | .exponent (some _) => !around.before.getLast?.any Node.isLog
  | _ => true

theorem Progress.afterLog_writeAll (o : ExprOptions) (before : List Node) (n : Nat) :
    (Node.writeAll o before (start n)).afterLog = before.getLast?.any Node.isLog := by
  rcases List.eq_nil_or_concat before with rfl | ⟨before, node, rfl⟩
  · rfl
  · rw [List.concat_eq_append, writeAll_append, List.getLast?_concat]
    exact afterLog_advance

namespace Node

/-- A list behind a gap is written onto what stands before it. -/
theorem compile_around (o : ExprOptions) (around : Around) (inner : List Node) (n : Nat) :
    compile o (around.fill inner) n = (writeAll o around.behind
      ((writeAll o around.before (.start n)).advance o (around.gap.fill inner).kind
        ((around.gap.fill inner).meaning o))).finish o := by
  rw [compile, Around.fill, Progress.writeAll_append]
  rfl

/-- Lists that differ make the nodes that hold them differ. -/
theorem Gap.meaning_apart (gap : Gap) (h : (compile w inner).Apart o (compile w inner')) :
    ((gap.fill inner).meaning w).Apart o ((gap.fill inner').meaning w) := by
  have hquotient : ∀ (c d : Compilation) (n : Nat), ¬FormulaEditor.ParenFree (quotient c d n).1.expr :=
    fun c d n => not_parenFree_of_mem (by simp [quotient])
  have hroot : ∀ (c d : Compilation) (n : Nat), ¬FormulaEditor.ParenFree (indexedRoot c d n).1.expr :=
    fun c d n => not_parenFree_of_mem (by simp [indexedRoot])
  have hsqrt : ∀ (c : Compilation) (n : Nat), ¬FormulaEditor.ParenFree (squareRoot c n).1.expr :=
    fun c n => not_parenFree_of_mem (by simp [squareRoot])
  have hcall : ∀ (name : String) (c : Compilation) (n : Nat),
      ¬FormulaEditor.ParenFree (call name c n).1.expr :=
    fun name c n => not_parenFree_of_mem (by simp [call])
  have hexponent : ∀ n, (compile w inner n).1.power.Apart o (compile w inner' n).1.power ∧
      (compile w inner n).2 = (compile w inner' n).2 := by
    intro n
    have hpower := (h n).1.around "" "" ", (" "))"
    simp only [String.empty_append, String.append_empty] at hpower
    exact ⟨hpower, (h n).2⟩
  rcases gap with below | above | under | (_ | degree) | (_ | sub) | wrap | ⟨op, lower⟩ | ⟨op, upper⟩ <;>
    simp only [fill, meaning]
  · exact .piece (h.quotient_left _) (hquotient _ _) (hquotient _ _)
  · exact .piece (h.quotient_right _) (hquotient _ _) (hquotient _ _)
  · exact .piece (h.indexedRoot_left _) (hroot _ _) (hroot _ _)
  · exact .piece h.squareRoot (hsqrt _) (hsqrt _)
  · exact .piece (h.indexedRoot_right _) (hroot _ _) (hroot _ _)
  · exact .exponent none hexponent
  · exact .exponent _ hexponent
  · exact .piece (h.call wrap.name) (hcall wrap.name _) (hcall wrap.name _)
  · exact .top op _ h
  · exact .bottom op _ h

/-- Lists that become the same make no difference. -/
theorem Gap.meaning_eq (gap : Gap) (h : compile o inner = compile o inner') :
    (gap.fill inner).meaning o = (gap.fill inner').meaning o := by
  have hfinish : (fun n => (writeAll o inner (.start n)).finish o) =
      fun n => (writeAll o inner' (.start n)).finish o := h
  rcases gap with below | above | under | (_ | degree) | (_ | sub) | wrap | ⟨op, lower⟩ | ⟨op, upper⟩ <;>
    simp only [fill, meaning, hfinish]

/-- A node that differs makes the list around it differ, if what it holds is written. -/
theorem compile_apart_around {around : Around} (hwritten : around.isWritten = true)
    (ho : w.promotesIntegers = false)
    (h : ((around.gap.fill inner).meaning w).Apart o ((around.gap.fill inner').meaning w)) :
    (compile w (around.fill inner)).Apart o (compile w (around.fill inner')) := by
  obtain ⟨before, gap, behind⟩ := around
  intro n
  have hlog : ∀ exponent base, (gap.fill inner).meaning w = .scripts exponent (some base) →
      (writeAll w before (.start n)).afterLog = false := by
    intro exponent base hm
    have hsubscript : (gap.fill inner).hasSubscript = true :=
      hasSubscript_iff.mpr ⟨exponent, base, hm⟩
    rw [Progress.afterLog_writeAll]
    rcases gap with _ | _ | _ | _ | (_ | sub) | _ | _ | _ <;>
      simp only [Gap.fill, hasSubscript, Bool.false_eq_true] at hsubscript
    simpa [Around.isWritten] using hwritten
  rw [compile_around, compile_around]
  generalize writeAll w before (.start n) = p at hlog
  have hkind : (gap.fill inner).kind = (gap.fill inner').kind := gap.kind_fill inner inner'
  have hadvance := Progress.apart_advance (w := w) p h (gap.fill inner).kind hlog
  nth_rewrite 2 [hkind] at hadvance
  exact (hadvance.writeAll (Progress.kept_apart w) Progress.logged_advance
    Progress.logged_advance behind).apart_finish ho

/-- An exponent beside the base of a logarithm is not written. -/
theorem compile_around_of_not_written {around : Around} (h : around.isWritten = false)
    (o : ExprOptions) (inner inner' : List Node) :
    compile o (around.fill inner) = compile o (around.fill inner') := by
  obtain ⟨before, gap, behind⟩ := around
  rcases gap with _ | _ | _ | _ | (_ | sub) | _ | _ | _ <;>
    simp only [Around.isWritten, Bool.true_eq_false, Bool.not_eq_false'] at h
  funext n
  have hlog : (writeAll o before (.start n)).afterLog = true :=
    (Progress.afterLog_writeAll o before n).trans h
  rw [compile_around, compile_around]
  simp only [Gap.fill, meaning, kind, Progress.advance, Progress.afterLog_separate, hlog]

theorem compile_around_congr (around : Around) (h : compile o inner = compile o inner') :
    compile o (around.fill inner) = compile o (around.fill inner') := by
  funext n
  rw [compile_around, compile_around, around.gap.kind_fill inner inner', around.gap.meaning_eq h]

/-! ## In the depth of a formula -/

theorem compile_apart_fillAll {outer : List Around} (hwritten : ∀ around ∈ outer,
    around.isWritten = true) (ho : w.promotesIntegers = false)
    (h : (compile w inner).Apart o (compile w inner')) :
    (compile w (Around.fillAll outer inner)).Apart o (compile w (Around.fillAll outer inner')) := by
  induction outer with
  | nil => exact h
  | cons around outer ih =>
    obtain ⟨hhere, houter⟩ := List.forall_mem_cons.mp hwritten
    exact compile_apart_around hhere ho (around.gap.meaning_apart (ih houter))

theorem compile_fillAll_of_not_written {outer : List Around} (h : ∃ around ∈ outer,
    around.isWritten = false) (o : ExprOptions) (inner inner' : List Node) :
    compile o (Around.fillAll outer inner) = compile o (Around.fillAll outer inner') := by
  induction outer with
  | nil => simp at h
  | cons around outer ih =>
    cases hhere : around.isWritten with
    | false => exact compile_around_of_not_written hhere o _ _
    | true => exact compile_around_congr around (ih (by simpa [hhere] using h))

/-- Exponents without sums that are written differently make their operands different. -/
theorem apart_exponent {exponent exponent' : List Node} (he : SumFree exponent)
    (he' : SumFree exponent') (n : Nat)
    (h : (compile o exponent n).1.expr ≠ (compile o exponent' n).1.expr)
    (sub : Option (List Node)) :
    (((Gap.exponent sub).fill exponent).meaning (o.promoting false)).Apart o
      (((Gap.exponent sub).fill exponent').meaning (o.promoting false)) := by
  obtain ⟨s, hs⟩ := he.steady (o := o.promoting false)
  obtain ⟨t, ht⟩ := he'.steady (o := o.promoting false)
  have hne : o.spell s ≠ o.spell t := by
    rw [compile_written o, compile_written o, hs, ht, Expression.written_eq,
      Expression.written_eq] at h
    exact h
  have hpower : ∀ k, (compile (o.promoting false) exponent k).1.power.Apart o
        (compile (o.promoting false) exponent' k).1.power ∧
      (compile (o.promoting false) exponent k).2 = (compile (o.promoting false) exponent' k).2 := by
    intro k
    rw [hs, ht]
    exact ⟨.expr "" (.between (by decide +kernel) (by decide +kernel) hne), rfl⟩
  cases sub with
  | none => exact .exponent none hpower
  | some sub => exact .exponent _ hpower

/-- The expression of a formula tells what every exponent says that is written: two exponents without
sums whose texts differ make different expressions of the formula around them. If the exponent, or
one that it lies in, stands beside the base of a logarithm, the expressions are the same. -/
theorem compile_ne_iff_written (o : ExprOptions) (outer : List Around) (before : List Node)
    (sub : Option (List Node)) (behind exponent exponent' : List Node) (n : Nat)
    (he : SumFree exponent) (he' : SumFree exponent')
    (h : (compile o exponent n).1.expr ≠ (compile o exponent' n).1.expr) :
    let around := outer ++ [⟨before, .exponent sub, behind⟩]
    (compile o (Around.fillAll around exponent) n).1 ≠
        (compile o (Around.fillAll around exponent') n).1 ↔
      ∀ place ∈ around, place.isWritten = true := by
  intro around
  constructor
  · intro hne place hplace
    by_contra hnot
    have heq := compile_fillAll_of_not_written ⟨place, hplace, by simpa using hnot⟩ o exponent
      exponent'
    exact hne (congrArg (fun c => (c n).1) heq)
  · intro hwritten heq
    have hlast : Around.isWritten ⟨before, .exponent sub, behind⟩ = true := hwritten _ (by simp [around])
    have hinner := compile_apart_around (w := o.promoting false) hlast rfl
      (apart_exponent he he' n h sub)
    have houter := compile_apart_fillAll
      (fun place hplace => hwritten place (List.mem_append_left _ hplace)) rfl hinner
    have hfill : ∀ e, Around.fillAll around e =
        Around.fillAll outer (Around.fill ⟨before, .exponent sub, behind⟩ e) := by
      simp [around, Around.fillAll]
    rw [hfill, hfill, compile_written o, compile_written o] at heq
    exact (houter n).1.written_ne heq

/-- The exponent of a numerator can be read off the fraction. -/
theorem compile_ne_iff_written_numerator :
    SumFree [atom "2"] ∧ SumFree [atom "3"] ∧
    (compile .standard [atom "2"] 0).1.expr ≠ (compile .standard [atom "3"] 0).1.expr ∧
    ((compile .standard [frac [atom "x", scripts (some [atom "2"]) none] [atom "y"]] 0).1 ≠
        (compile .standard [frac [atom "x", scripts (some [atom "3"]) none] [atom "y"]] 0).1 ↔
      ∀ place ∈ [(⟨[], .numerator [atom "y"], []⟩ : Around), ⟨[atom "x"], .exponent none, []⟩],
        place.isWritten = true) := by
  have hfree : ∀ text, SumFree [atom text] := fun text =>
    .of_leaves (by simp [kind, Kind.isBig]) (by simp [lists])
  have hne : (compile .standard [atom "2"] 0).1.expr ≠ (compile .standard [atom "3"] 0).1.expr := by
    decide +kernel
  exact ⟨hfree "2", hfree "3", hne, compile_ne_iff_written .standard
    [⟨[], .numerator [atom "y"], []⟩] [atom "x"] none [] [atom "2"] [atom "3"] 0 (hfree "2")
    (hfree "3") hne⟩

/-- Beside the base of a logarithm, a third power is written as a fourth. -/
theorem compile_power_beside_base :
    (compile .standard [atom "3"] 0).1.expr ≠ (compile .standard [atom "4"] 0).1.expr ∧
    (compile .standard
        [function "log", scripts (some [atom "3"]) (some [atom "2"]), atom "x"] 0).1 =
      (compile .standard
        [function "log", scripts (some [atom "4"]) (some [atom "2"]), atom "x"] 0).1 := by
  decide +kernel

end Node

end FormulaEditor
