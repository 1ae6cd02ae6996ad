import FormulaEditor.Operand

/-!
# Operands lie beside the caret

An operand is never longer than what there is to scan, scripts included.
-/

namespace FormulaEditor.OperandToken

/-- Only an operand that has not begun counts a token that is not there. -/
theorem operandLengthFrom_le (level taken : Nat) (tokens : List OperandToken) :
    operandLengthFrom level taken tokens ≤ max (taken + tokens.length) 1 := by
  fun_induction operandLengthFrom level taken tokens <;>
    first | omega | (simp only [List.length_cons]; omega)

theorem operandLength_le (tokens : List OperandToken) : operandLength tokens ≤ tokens.length := by
  cases tokens with
  | nil => simp [operandLength]
  | cons token rest =>
    have h := operandLengthFrom_le 0 0 (token :: rest)
    simp only [List.length_cons] at h
    unfold operandLength
    split
    · simp only [List.length_cons]; omega
    · simp only [List.length_cons]; omega
    · simp only [List.length_cons]; omega
    · exact Nat.zero_le _

theorem absorbLeft_le (before : List OperandToken) : absorbLeft before ≤ before.length := by
  unfold absorbLeft
  have hbase := (List.dropWhile_suffix (· == scripts) (l := before.reverse)).length_le
  have hlen := operandLength_le ((before.reverse.dropWhile (· == scripts)).map flipped)
  simp only [List.length_map, List.length_reverse] at *
  split
  · omega
  · omega

theorem absorbRight_le (after : List OperandToken) : absorbRight after ≤ after.length := by
  unfold absorbRight
  have hlen := operandLength_le after
  split
  · exact Nat.zero_le _
  · rename_i n hn
    have hrest := (List.takeWhile_prefix (· == scripts)
      (l := after.drop (operandLength after))).length_le
    simp only [List.length_drop] at hrest
    omega

end FormulaEditor.OperandToken
