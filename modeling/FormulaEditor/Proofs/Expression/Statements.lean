import FormulaEditor.Expression.Progress
import FormulaEditor.Proofs.Text.Alike

/-!
# Statements before an expression

The statements that an expression depends on are loops, one after the other, each on lines of its
own. The signs that stand around a loop and between its parts keep integers apart, so it does not
matter to its text when they are written as floats.
-/

namespace FormulaEditor

variable {op : BigOp} {s t name : String}

/-- Statements are none, or begin on a new line and end in a closing brace. -/
def Statements (s : String) : Prop :=
  s = "" ∨ ∃ t, s = "\n" ++ t ++ "\x7d"

theorem Statements.append (hs : Statements s) (ht : Statements t) : Statements (s ++ t) := by
  obtain rfl | ⟨s, rfl⟩ := hs
  · simpa using ht
  · obtain rfl | ⟨t, rfl⟩ := ht
    · exact .inr ⟨s, by simp⟩
    · exact .inr ⟨s ++ "\x7d" ++ "\n" ++ t, by simp only [String.append_assoc]⟩

/-- The signs at either end of a statement keep its integers apart from what is around it. -/
theorem promoteIntegers_statement (t : String) :
    Text.promoteIntegers ("\n" ++ t ++ "\x7d") = "\n" ++ Text.promoteIntegers t ++ "\x7d" := by
  have hline : Text.isSeparator "\n" = true := by decide +kernel
  have hbrace : Text.isSeparator "\x7d" = true := by decide +kernel
  have hempty : Text.promoteIntegers "" = "" := rfl
  have hopen := Text.promoteIntegers_separator hline "" t
  rw [String.empty_append, hempty, String.empty_append] at hopen
  rw [Text.promoteIntegers_append_separator hbrace, hopen]

theorem Statements.alike (h : Statements s) : Text.Alike (Text.promoteIntegers s) s := by
  obtain rfl | ⟨t, rfl⟩ := h
  · rfl
  · rw [promoteIntegers_statement]
    exact Text.alike_between (by decide +kernel) (by decide +kernel) t

theorem OpenSum.body_loopText (op : BigOp) (name : String) (init last argument : Expression) :
    (loopText op name init last argument).body = "\n" ++ init.body ++ "\n" ++ last.body ++
      "\nfloat " ++ name ++ " = " ++ (startAndStep op).1 ++ ";\nfor (float " ++ init.expr ++ "; " ++
      loopVariable init.expr ++ " <= " ++ last.expr ++ "; " ++ loopVariable init.expr ++
      "++) \x7b\n    " ++ argument.body ++ "\n    " ++ name ++ " " ++ (startAndStep op).2 ++ " " ++
      argument.expr ++ ";\n\x7d" := rfl

/-- A loop begins on a new line and ends in a closing brace. -/
theorem OpenSum.statements_loopText {init last argument : Expression} :
    Statements (loopText op name init last argument).body := by
  refine .inr ⟨init.body ++ "\n" ++ last.body ++ "\nfloat " ++ name ++ " = " ++
    (startAndStep op).1 ++ ";\nfor (float " ++ init.expr ++ "; " ++ loopVariable init.expr ++
    " <= " ++ last.expr ++ "; " ++ loopVariable init.expr ++ "++) \x7b\n    " ++ argument.body ++
    "\n    " ++ name ++ " " ++ (startAndStep op).2 ++ " " ++ argument.expr ++ ";\n", ?_⟩
  have hend : (";\n\x7d" : String) = ";\n" ++ "\x7d" := rfl
  rw [body_loopText, hend]
  simp only [String.append_assoc]

/-- The loop variable is found before integers are written as floats or after. -/
theorem OpenSum.loopVariable_promoteIntegers (init : String) :
    loopVariable (Text.promoteIntegers init) = Text.promoteIntegers (loopVariable init) := by
  have hequals : Text.isBreak '=' = true := by decide +kernel
  simp only [loopVariable, Text.promoteIntegers, String.toList_ofList,
    Text.takeWhile_promoteFrom hequals, Text.trim_promoteFrom]

/-- A loop, given the texts of its parts, without the statements that its limits depend on. -/
def OpenSum.loopLines (op : BigOp) (name init index last inner argument : String) : String :=
  "\nfloat " ++ name ++ " = " ++ (startAndStep op).1 ++ ";\nfor (float " ++ init ++ "; " ++ index ++
    " <= " ++ last ++ "; " ++ index ++ "++) \x7b\n    " ++ inner ++ "\n    " ++ name ++ " " ++
    (startAndStep op).2 ++ " " ++ argument ++ ";\n\x7d"

/-- What a loop writes around its parts keeps the integers of the parts apart. -/
theorem OpenSum.promoteIntegers_loopLines (before behind : String)
    {init index last inner argument : String} :
    Text.promoteIntegers (before ++ loopLines op name init index last inner argument ++ behind) =
      Text.promoteIntegers before ++ loopLines op (Text.promoteIntegers name)
        (Text.promoteIntegers init) (Text.promoteIntegers index) (Text.promoteIntegers last)
        (Text.promoteIntegers inner) (Text.promoteIntegers argument) ++
        Text.promoteIntegers behind := by
  have hstart : Text.promoteIntegers (startAndStep op).1 = (startAndStep op).1 := by
    cases op <;> decide +kernel
  have hstep : Text.promoteIntegers (startAndStep op).2 = (startAndStep op).2 := by
    cases op <;> decide +kernel
  have hfloat : Text.isSeparator "\nfloat " = true := by decide +kernel
  have hassign : Text.isSeparator " = " = true := by decide +kernel
  have hfor : Text.isSeparator ";\nfor (float " = true := by decide +kernel
  have hsemicolon : Text.isSeparator "; " = true := by decide +kernel
  have hle : Text.isSeparator " <= " = true := by decide +kernel
  have hopen : Text.isSeparator "++) \x7b\n    " = true := by decide +kernel
  have hindent : Text.isSeparator "\n    " = true := by decide +kernel
  have hblank : Text.isSeparator " " = true := by decide +kernel
  have hclose : Text.isSeparator ";\n\x7d" = true := by decide +kernel
  unfold loopLines
  simp only [← String.append_assoc, Text.promoteIntegers_separator hfloat,
    Text.promoteIntegers_separator hassign, Text.promoteIntegers_separator hfor,
    Text.promoteIntegers_separator hsemicolon, Text.promoteIntegers_separator hle,
    Text.promoteIntegers_separator hopen, Text.promoteIntegers_separator hindent,
    Text.promoteIntegers_separator hblank, Text.promoteIntegers_separator hclose, hstart, hstep]

theorem OpenSum.promoteIntegers_append_loopLines (before : String)
    {init index last inner argument : String} :
    Text.promoteIntegers (before ++ loopLines op name init index last inner argument) =
      Text.promoteIntegers before ++ loopLines op (Text.promoteIntegers name)
        (Text.promoteIntegers init) (Text.promoteIntegers index) (Text.promoteIntegers last)
        (Text.promoteIntegers inner) (Text.promoteIntegers argument) := by
  have hempty : Text.promoteIntegers "" = "" := rfl
  simpa [hempty] using promoteIntegers_loopLines before ""

theorem OpenSum.promoteIntegers_loopText (before behind : String)
    {init last argument : Expression} :
    Text.promoteIntegers (before ++ (loopText op name init last argument).body ++ behind) =
      Text.promoteIntegers before ++ (loopText op (Text.promoteIntegers name) init.promoteIntegers
        last.promoteIntegers argument.promoteIntegers).body ++ Text.promoteIntegers behind := by
  have hbody : ∀ name init last argument, (loopText op name init last argument).body =
      "\n" ++ init.body ++ "\n" ++ last.body ++ loopLines op name init.expr
        (loopVariable init.expr) last.expr argument.body argument.expr := by
    intro name init last argument
    unfold loopLines
    simp only [body_loopText, String.append_assoc]
  have hline : Text.isSeparator "\n" = true := by decide +kernel
  simp only [hbody, Expression.promoteIntegers, loopVariable_promoteIntegers, promoteIntegers_loopLines,
    ← String.append_assoc, Text.promoteIntegers_separator hline]

end FormulaEditor
