import Mathlib.Data.List.Induction
import Mathlib.Data.List.TakeWhile
import FormulaEditor.Proofs.Operand.Extent

/-!
# What is taken leaves the parens matched

Where the parens of a list match, a scan beside the caret meets no group that is left open, so it
takes matching parens only. The list without the operands then has matching parens, too.
-/

namespace FormulaEditor.OperandToken

variable {k j n level taken : Nat} {token : OperandToken}
  {tokens inner new base before after : List OperandToken}

/-! ## One scan -/

/-- Among tokens that close whatever is open, a scan that is under way gives up, or it stops where
its own groups are closed. -/
theorem operandLengthFrom_closes (h : opened (k + level) tokens = some 0) (ht : 0 < taken) :
    operandLengthFrom level taken tokens = 0 ∨
      ∃ m, operandLengthFrom level taken tokens = taken + m ∧
        opened level (tokens.take m) = some 0 := by
  induction tokens generalizing level taken with
  | nil =>
    have hlevel : k + level = 0 := Option.some.inj h
    obtain rfl : level = 0 := by omega
    exact .inr ⟨0, Nat.max_eq_left ht, rfl⟩
  | cons token rest ih =>
    -- The scan goes on: what is known of the rest is known of the whole.
    have hnext : ∀ level', opened (k + level') rest = some 0 →
        (∀ m, opened level (token :: rest.take m) = opened level' (rest.take m)) →
        operandLengthFrom level taken (token :: rest) = operandLengthFrom level' (taken + 1) rest →
        operandLengthFrom level taken (token :: rest) = 0 ∨
          ∃ m, operandLengthFrom level taken (token :: rest) = taken + m ∧
            opened level ((token :: rest).take m) = some 0 := by
      intro level' hrest hopened hscan
      rw [hscan]
      obtain hzero | ⟨m, hm, hclosed⟩ := ih hrest taken.add_one_pos
      · exact .inl hzero
      · refine .inr ⟨m + 1, by omega, ?_⟩
        rw [List.take_succ_cons, hopened, hclosed]
    cases token with
    | number => exact hnext level h (fun _ => rfl) (by cases level <;> rfl)
    | leftParen => exact hnext (level + 1) h (fun _ => rfl) (by cases level <;> rfl)
    | rightParen =>
      cases level with
      | zero => exact .inl rfl
      | succ level =>
        cases level with
        | zero => exact .inr ⟨1, rfl, rfl⟩
        | succ level => exact hnext (level + 1) h (fun _ => rfl) rfl
    | symbol | scripts | other =>
      cases level with
      | zero => exact .inr ⟨0, Nat.max_eq_left ht, rfl⟩
      | succ level => exact hnext (level + 1) h (fun _ => rfl) rfl

/-- Among tokens that close whatever is open, the operand has matching parens. -/
theorem matched_operand (h : opened k tokens = some 0) :
    Matched (tokens.take (operandLength tokens)) := by
  cases tokens with
  | nil => rfl
  | cons token rest =>
    have hgoes : ∀ level, opened (k + level) rest = some 0 →
        operandLength (token :: rest) = operandLengthFrom level 1 rest →
        (∀ m, opened 0 (token :: rest.take m) = opened level (rest.take m)) →
        Matched ((token :: rest).take (operandLength (token :: rest))) := by
      intro level hrest hscan hopened
      obtain hzero | ⟨m, hm, hclosed⟩ := operandLengthFrom_closes hrest Nat.one_pos
      · rw [hscan, hzero]
        rfl
      · rw [hscan, hm, Nat.add_comm, List.take_succ_cons]
        exact (hopened m).trans hclosed
    cases token with
    | number => exact hgoes 0 h rfl fun _ => rfl
    | leftParen => exact hgoes 1 h rfl fun _ => rfl
    | symbol | scripts | rightParen | other => rfl

/-! ## Both sides -/

theorem opened_append :
    opened k (tokens ++ new) = (opened k tokens).bind fun j => opened j new :=
  openAfter_append

theorem Matched.opened (h : Matched tokens) (k : Nat) : opened k tokens = some k := by
  have hmore := openAfter_add h k
  rwa [Nat.zero_add] at hmore

theorem Matched.append (h : Matched inner) (h' : Matched new) : Matched (inner ++ new) := by
  rw [Matched, opened_append, h]
  exact h'

/-- Tokens with matching parens may be exchanged for others. -/
theorem Matched.exchange (h : Matched (before ++ (inner ++ after))) (hinner : Matched inner)
    (hnew : Matched new) : Matched (before ++ (new ++ after)) := by
  rw [Matched, opened_append] at h
  obtain ⟨k, hk, hrest⟩ := Option.bind_eq_some_iff.mp h
  rw [opened_append, hinner.opened, Option.bind_some] at hrest
  rw [Matched, opened_append, hk, Option.bind_some, opened_append, hnew.opened, Option.bind_some]
  exact hrest

theorem matched_scripts (s : Nat) : Matched (List.replicate s scripts) :=
  openAfter_eq_self fun token ht => by simp [List.eq_of_mem_replicate ht]

/-- To the right of a caret, an operand and its scripts have matching parens. -/
theorem matched_absorbRight (h : opened k after = some 0) :
    Matched (after.take (absorbRight after)) := by
  rw [absorbRight_eq]
  split
  · rfl
  · have hscripts : ((after.drop (operandLength after)).take
        ((after.drop (operandLength after)).takeWhile (· == scripts)).length) =
        (after.drop (operandLength after)).takeWhile (· == scripts) :=
      (List.prefix_iff_eq_take.mp (List.takeWhile_prefix _)).symm
    rw [List.take_add, hscripts]
    refine (matched_operand h).append (openAfter_eq_self fun token ht => ?_)
    obtain rfl : token = scripts := by simpa using List.mem_takeWhile_imp ht
    simp

/-- Scripts at the end of a list come apart from it. -/
theorem exists_base (tokens : List OperandToken) : ∃ base s,
    tokens = base ++ List.replicate s scripts ∧ base.getLast? ≠ some scripts := by
  induction tokens using List.reverseRecOn with
  | nil => exact ⟨[], 0, rfl, by simp⟩
  | append_singleton tokens token ih =>
    by_cases htoken : token = scripts
    · obtain ⟨base, s, rfl, hbase⟩ := ih
      refine ⟨base, s + 1, ?_, hbase⟩
      rw [htoken, List.replicate_succ', List.append_assoc]
    · exact ⟨tokens ++ [token], 0, by simp, by simpa using htoken⟩

theorem mirrored_mirrored (tokens : List OperandToken) : mirrored (mirrored tokens) = tokens := by
  have hflipped : flipped ∘ flipped = id := by
    funext token
    cases token <;> rfl
  simp [mirrored, hflipped]

theorem take_mirrored (tokens : List OperandToken) (n : Nat) :
    (mirrored tokens).take n = mirrored (tokens.drop (tokens.length - n)) := by
  rw [mirrored, ← List.map_take, List.take_reverse, mirrored]

/-- To the left of a caret, an operand and its scripts have matching parens. -/
theorem matched_absorbLeft (h : opened 0 before = some k) :
    Matched (before.drop (before.length - absorbLeft before)) := by
  obtain ⟨base, s, rfl, hbase⟩ := exists_base before
  rw [absorbLeft_eq hbase]
  split
  · rw [Nat.sub_zero, List.drop_length]
    rfl
  · rw [opened_append] at h
    obtain ⟨j, hj, -⟩ := Option.bind_eq_some_iff.mp h
    have hback : opened j (mirrored base) = some 0 := by
      rw [opened_mirrored_eq]
      exact opened_mirrored hj
    have hoperand := (matched_operand hback).mirrored
    rw [take_mirrored, mirrored_mirrored] at hoperand
    have hle := operandLength_le (mirrored base)
    rw [length_mirrored] at hle
    have hstart : (base ++ List.replicate s scripts).length - (operandLength (mirrored base) + s) =
        base.length - operandLength (mirrored base) := by
      rw [List.length_append, List.length_replicate]
      omega
    rw [hstart, List.drop_append_of_le_length (Nat.sub_le _ _)]
    exact hoperand.append (matched_scripts s)

/-- Beside a caret in a list whose parens match, both operands have matching parens. -/
theorem Matched.operands {left right : List OperandToken}
    (h : Matched (before ++ (left ++ (right ++ after))))
    (hleft : left = [] ∨ left.length = absorbLeft (before ++ left))
    (hright : right.length = absorbRight (right ++ after)) : Matched left ∧ Matched right := by
  rw [← List.append_assoc, Matched, opened_append] at h
  obtain ⟨k, hbefore, hafter⟩ := Option.bind_eq_some_iff.mp h
  constructor
  · obtain rfl | hleft := hleft
    · rfl
    · have hmatched := matched_absorbLeft hbefore
      rwa [← hleft, List.length_append, Nat.add_sub_cancel, List.drop_left] at hmatched
  · have hmatched := matched_absorbRight hafter
    rwa [← hright, List.take_left] at hmatched

end FormulaEditor.OperandToken
